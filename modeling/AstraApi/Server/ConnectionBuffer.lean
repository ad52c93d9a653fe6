import AstraApi.Lib.Bytes
import AstraApi.Lib.Circular
import AstraApi.Lib.Doubling
import AstraApi.Lib.Simulation

/-!
# The connection buffer

`HttpConnectionBuffer` holds the bytes of a connection that are not yet parsed
between two offsets of one block of memory.  Before it writes it moves the bytes
to the front if more than half of the block lies unused there, and then enlarges
the block, but never beyond a maximum.  The size check counts the bytes held; the
write happens behind them, wherever they lie.
-/

namespace AstraApi.Server

open List
open Circular Doubling Simulation

/-- `buf` is the memory from the start of the block on. -/
structure HttpConnectionBuffer where
  buf : Bytes
  capacity : ℕ
  readPos : ℕ := 0
  writePos : ℕ := 0

namespace HttpConnectionBuffer

def initialCapacity : ℕ := 1024
def maxCapacity : ℕ := 16777216

def create : HttpConnectionBuffer where
  buf := List.replicate initialCapacity 0
  capacity := initialCapacity

def size (buffer : HttpConnectionBuffer) : ℕ := buffer.writePos - buffer.readPos

def writableSize (buffer : HttpConnectionBuffer) : ℕ := buffer.capacity - buffer.writePos

def contents (buffer : HttpConnectionBuffer) : Bytes :=
  (buffer.buf.drop buffer.readPos).take buffer.size

/-- Move the readable bytes to the front if more than half of the capacity lies
before them. -/
def compact (buffer : HttpConnectionBuffer) : HttpConnectionBuffer :=
  if buffer.capacity / 2 < buffer.readPos then
    { buffer with
      buf := blit buffer.buf 0 buffer.contents
      readPos := 0
      writePos := buffer.size }
  else buffer

/-- `realloc`; bytes that are new are zero here. -/
def resize (buf : Bytes) (capacity : ℕ) : Bytes :=
  buf.take capacity ++ List.replicate (capacity - buf.length) 0

/-- Enlarge the block for `len` bytes behind the write position. -/
def growFor (buffer : HttpConnectionBuffer) (len : ℕ) : HttpConnectionBuffer :=
  if buffer.capacity < buffer.writePos + len then
    let needed := buffer.writePos + len
    let newCap := min (doubleUntil needed buffer.capacity needed) maxCapacity
    { buffer with buf := resize buffer.buf newCap, capacity := newCap }
  else buffer

/-- The write at the write position. -/
def put (buffer : HttpConnectionBuffer) (data : Bytes) : HttpConnectionBuffer :=
  { buffer with
    buf := blit buffer.buf buffer.writePos data
    writePos := buffer.writePos + data.length }

def append (buffer : HttpConnectionBuffer) (data : Bytes) : Bool × HttpConnectionBuffer :=
  if maxCapacity < buffer.size + data.length then (false, buffer)
  else (true, (buffer.compact.growFor data.length).put data)

def ensureWritable (buffer : HttpConnectionBuffer) (count : ℕ) : Bool × HttpConnectionBuffer :=
  if maxCapacity < buffer.size + count then (false, buffer)
  else (true, buffer.compact.growFor count)

def consume (buffer : HttpConnectionBuffer) (count : ℕ) : HttpConnectionBuffer :=
  if buffer.writePos ≤ buffer.readPos + count then { buffer with readPos := 0, writePos := 0 }
  else { buffer with readPos := buffer.readPos + count }

def clear (buffer : HttpConnectionBuffer) : HttpConnectionBuffer :=
  if initialCapacity * 4 < buffer.capacity then
    { buf := resize buffer.buf initialCapacity, capacity := initialCapacity }
  else { buffer with readPos := 0, writePos := 0 }

/-! ## Runs -/

/-- The operations.  To receive is to ask for room, to let the event loop write
some bytes there and to commit them. -/
inductive Operation where
  | append (data : Bytes)
  | receive (hint : ℕ) (data : Bytes)
  | consume (count : ℕ)
  | clear

def perform (buffer : HttpConnectionBuffer) : Operation → Option Bool × HttpConnectionBuffer
  | .append data =>
    let (success, buffer) := buffer.append data
    (some success, buffer)
  | .receive hint data =>
    let (success, buffer) := buffer.ensureWritable hint
    (some success, if success then buffer.put data else buffer)
  | .consume count => (none, buffer.consume count)
  | .clear => (none, buffer.clear)

/-- What the callers of an operation respect. -/
def Legal (buffer : HttpConnectionBuffer) : Operation → Prop
  | .receive hint data => data.length ≤ hint
  | .consume count => count ≤ buffer.size
  | _ => True

inductive QueueStep (queue : Bytes) : Operation → Option Bool → Bytes → Prop
  | append {data : Bytes} (h : queue.length + data.length ≤ maxCapacity) :
      QueueStep queue (.append data) (some true) (queue ++ data)
  | refuse {data : Bytes} (h : maxCapacity < queue.length + data.length) :
      QueueStep queue (.append data) (some false) queue
  | receive {hint : ℕ} {data : Bytes} (h : queue.length + hint ≤ maxCapacity) :
      QueueStep queue (.receive hint data) (some true) (queue ++ data)
  | full {hint : ℕ} {data : Bytes} (h : maxCapacity < queue.length + hint) :
      QueueStep queue (.receive hint data) (some false) queue
  | consume {count : ℕ} : QueueStep queue (.consume count) none (queue.drop count)
  | clear : QueueStep queue .clear none []

structure Bounded (buffer : HttpConnectionBuffer) : Prop where
  ordered : buffer.readPos ≤ buffer.writePos
  inside : buffer.writePos ≤ buffer.capacity
  limited : buffer.capacity ≤ maxCapacity

/-- Nothing is written beyond the block, and the room asked for is there. -/
def WritesInside (buffer : HttpConnectionBuffer) : Operation → Prop
  | .append data =>
    (buffer.append data).1 = true →
      (buffer.compact.growFor data.length).writePos + data.length ≤
        (buffer.compact.growFor data.length).capacity
  | .receive hint _ =>
    (buffer.ensureWritable hint).1 = true → hint ≤ (buffer.ensureWritable hint).2.writableSize
  | _ => True

/-- What is expected of a step. -/
structure Sound (buffer : HttpConnectionBuffer) (operation : Operation) : Prop where
  before : buffer.Bounded
  after : (buffer.perform operation).2.Bounded
  inside : buffer.WritesInside operation
  queue : QueueStep buffer.contents operation (buffer.perform operation).1
    (buffer.perform operation).2.contents

/-- Bytes that are accepted where they lie fit behind the write position. -/
def RoomFor (buffer : HttpConnectionBuffer) (count : ℕ) : Prop :=
  buffer.size + count ≤ maxCapacity → buffer.readPos ≤ buffer.capacity / 2 →
    buffer.writePos + count ≤ maxCapacity

def Roomy (buffer : HttpConnectionBuffer) : Operation → Prop
  | .append data => buffer.RoomFor data.length
  | .receive hint _ => buffer.RoomFor hint
  | _ => True

/-! ## Steps -/

/-- The representation invariant. -/
structure Valid (buffer : HttpConnectionBuffer) : Prop extends Bounded buffer where
  length_buf : buffer.buf.length = buffer.capacity
  positive : 0 < buffer.capacity

theorem create_valid : create.Valid :=
  ⟨⟨le_rfl, Nat.zero_le _, by decide⟩, length_replicate, by decide⟩

variable {buffer : HttpConnectionBuffer}

theorem length_contents (h : buffer.Valid) : buffer.contents.length = buffer.size := by
  have hinside := h.inside
  rw [contents, length_take, length_drop, h.length_buf, size]
  omega

theorem compact_spec (h : buffer.Valid) :
    buffer.compact.Valid ∧ buffer.compact.contents = buffer.contents ∧
      buffer.compact.size = buffer.size := by
  have hlength := length_contents h
  have hinside := h.inside
  unfold compact
  split
  · have hfits : 0 + buffer.contents.length ≤ buffer.buf.length := by
      rw [hlength, h.length_buf, size]
      omega
    refine ⟨⟨⟨Nat.zero_le _, ?_, h.limited⟩, (length_blit hfits).trans h.length_buf, h.positive⟩,
      ?_, rfl⟩
    · simp only [size]
      omega
    · have htake : (blit buffer.buf 0 buffer.contents).take buffer.contents.length =
          buffer.contents := by
        rw [blit, take_zero, nil_append, take_left]
      rw [hlength] at htake
      exact htake
  · exact ⟨h, rfl, rfl⟩

theorem resize_eq {buf : Bytes} {capacity : ℕ} (h : buf.length ≤ capacity) :
    resize buf capacity = buf ++ List.replicate (capacity - buf.length) 0 := by
  rw [resize, take_of_length_le h]

/-- As long as the bytes fit below the maximum, there is room after growing. -/
theorem growFor_spec (h : buffer.Valid) {len : ℕ} (hroom : buffer.writePos + len ≤ maxCapacity) :
    (buffer.growFor len).Valid ∧ (buffer.growFor len).contents = buffer.contents ∧
      (buffer.growFor len).writePos = buffer.writePos ∧
      buffer.writePos + len ≤ (buffer.growFor len).capacity := by
  have hordered := h.ordered
  have hinside := h.inside
  simp only [growFor]
  split
  · rename_i hsmall
    have hdouble : buffer.writePos + len ≤
        doubleUntil (buffer.writePos + len) buffer.capacity (buffer.writePos + len) :=
      le_doubleUntil h.positive (by omega)
    generalize hcap : min (doubleUntil (buffer.writePos + len) buffer.capacity
      (buffer.writePos + len)) maxCapacity = newCap
    have hroom' : buffer.writePos + len ≤ newCap := by
      rw [← hcap]
      exact le_min hdouble hroom
    have hlimited' : newCap ≤ maxCapacity := by
      rw [← hcap]
      exact min_le_right _ _
    have hlength : buffer.buf.length ≤ newCap := by
      rw [h.length_buf]
      omega
    refine ⟨⟨⟨hordered, by simp only; omega, hlimited'⟩, ?_, by simp only; omega⟩, ?_, rfl, hroom'⟩
    · simp only [resize_eq hlength, length_append, length_replicate]
      omega
    · have hsize : buffer.size ≤ (buffer.buf.drop buffer.readPos).length := by
        rw [length_drop, h.length_buf, size]
        omega
      simp only [contents, size]
      rw [resize_eq hlength, drop_append_of_le_length (by rw [h.length_buf]; omega)]
      exact take_append_of_le_length hsize
  · rename_i henough
    exact ⟨h, rfl, rfl, by omega⟩

theorem growFor_capacity_le (hlimited : buffer.capacity ≤ maxCapacity) (len : ℕ) :
    (buffer.growFor len).capacity ≤ maxCapacity ∧
      (buffer.growFor len).writePos = buffer.writePos := by
  unfold growFor
  split
  · exact ⟨min_le_right _ _, rfl⟩
  · exact ⟨hlimited, rfl⟩

theorem put_spec (h : buffer.Valid) {data : Bytes}
    (hroom : buffer.writePos + data.length ≤ buffer.capacity) :
    (buffer.put data).Valid ∧ (buffer.put data).contents = buffer.contents ++ data := by
  have hordered := h.ordered
  have hfits : buffer.writePos + data.length ≤ buffer.buf.length := h.length_buf.symm ▸ hroom
  refine ⟨⟨⟨?_, hroom, h.limited⟩, (length_blit hfits).trans h.length_buf, h.positive⟩, ?_⟩
  · simp only [put]
    omega
  · have hwritten : (buffer.buf.take buffer.writePos).length = buffer.writePos := by
      rw [length_take]
      omega
    have hold : (buffer.buf.take buffer.writePos).drop buffer.readPos = buffer.contents := by
      rw [drop_take]
      rfl
    have hsize : (buffer.put data).size = buffer.size + data.length := by
      simp only [put, size]
      omega
    rw [contents, hsize]
    simp only [put, blit]
    rw [append_assoc, drop_append_of_le_length (by omega), hold,
      ← length_contents h, ← append_assoc, ← length_append, take_left]

/-- Where the bytes are put: after compaction there is always room, without it
exactly when `RoomFor` says so. -/
theorem prepare_spec (h : buffer.Valid) {count : ℕ}
    (haccepted : buffer.size + count ≤ maxCapacity) (hroom : buffer.RoomFor count) :
    (buffer.compact.growFor count).Valid ∧
      (buffer.compact.growFor count).contents = buffer.contents ∧
      (buffer.compact.growFor count).writePos + count ≤
        (buffer.compact.growFor count).capacity := by
  obtain ⟨hvalid, hcontents, -⟩ := compact_spec h
  have hfits : buffer.compact.writePos + count ≤ maxCapacity := by
    unfold compact
    split
    · exact haccepted
    · rename_i hfront
      exact hroom haccepted (Nat.le_of_not_lt hfront)
  obtain ⟨hvalid', hcontents', hwrite, hcapacity⟩ := growFor_spec hvalid hfits
  exact ⟨hvalid', hcontents'.trans hcontents, hwrite.symm ▸ hcapacity⟩

theorem no_room (h : buffer.Valid) {count : ℕ} (hroom : ¬ buffer.RoomFor count) :
    buffer.size + count ≤ maxCapacity ∧ (buffer.compact.growFor count).capacity <
        (buffer.compact.growFor count).writePos + count := by
  simp only [RoomFor, Classical.not_imp, Nat.not_le] at hroom
  obtain ⟨haccepted, hfront, hbeyond⟩ := hroom
  refine ⟨haccepted, ?_⟩
  have hcompact : buffer.compact = buffer := if_neg (Nat.not_lt.mpr hfront)
  obtain ⟨hcapacity, hwrite⟩ := growFor_capacity_le h.limited _
  rw [hcompact, hwrite]
  omega

/-- `consume` removes bytes from the front, whatever the state of the buffer. -/
theorem contents_consume (buffer : HttpConnectionBuffer) (count : ℕ) :
    (buffer.consume count).contents = buffer.contents.drop count := by
  unfold consume
  split
  · rename_i hall
    have hlength : buffer.contents.length ≤ count := by
      rw [contents, length_take, size]
      omega
    rw [drop_of_length_le hlength]
    simp [contents, size]
  · simp only [contents, size]
    rw [drop_take, drop_drop]
    congr 1
    omega

theorem consume_valid (h : buffer.Valid) (count : ℕ) : (buffer.consume count).Valid := by
  unfold consume
  split
  · exact ⟨⟨le_rfl, Nat.zero_le _, h.limited⟩, h.length_buf, h.positive⟩
  · exact ⟨⟨by simp only; omega, h.inside, h.limited⟩, h.length_buf, h.positive⟩

theorem clear_spec (h : buffer.Valid) : buffer.clear.Valid ∧ buffer.clear.contents = [] := by
  unfold clear
  split
  · rename_i hlarge
    have hlength : (resize buffer.buf initialCapacity).length = initialCapacity := by
      simp only [resize, length_append, length_take, length_replicate]
      omega
    have hlimited : initialCapacity ≤ maxCapacity := by decide
    have hpositive : 0 < initialCapacity := by decide
    exact ⟨⟨⟨le_rfl, Nat.zero_le _, hlimited⟩, hlength, hpositive⟩, by simp [contents, size]⟩
  · exact ⟨⟨⟨le_rfl, Nat.zero_le _, h.limited⟩, h.length_buf, h.positive⟩, by simp [contents, size]⟩

/-! ## Whole runs -/

/-- An accepted request for room, with the bytes that are then written. -/
theorem write_spec (h : buffer.Valid) {count : ℕ} {data : Bytes} (hdata : data.length ≤ count)
    (haccepted : buffer.size + count ≤ maxCapacity) (hroom : buffer.RoomFor count) :
    ((buffer.compact.growFor count).put data).Valid ∧
      ((buffer.compact.growFor count).put data).contents = buffer.contents ++ data := by
  obtain ⟨hvalid, hcontents, hfits⟩ := prepare_spec h haccepted hroom
  obtain ⟨hvalid', hcontents'⟩ := put_spec hvalid (show _ + data.length ≤ _ by omega)
  exact ⟨hvalid', hcontents'.trans (by rw [hcontents])⟩

theorem append_spec (h : buffer.Valid) {data : Bytes}
    (haccepted : buffer.size + data.length ≤ maxCapacity) (hroom : buffer.RoomFor data.length) :
    (buffer.append data).1 = true ∧ (buffer.append data).2.Valid ∧
      (buffer.append data).2.contents = buffer.contents ++ data := by
  rw [append, if_neg (Nat.not_lt.mpr haccepted)]
  exact ⟨rfl, write_spec h le_rfl haccepted hroom⟩

theorem writePos_append_le (buffer : HttpConnectionBuffer) (data : Bytes) :
    (buffer.append data).2.writePos ≤ buffer.writePos + data.length := by
  have hcompact : buffer.compact.writePos ≤ buffer.writePos := by
    unfold compact
    split
    · exact Nat.sub_le _ _
    · exact le_rfl
  have hgrow : (buffer.compact.growFor data.length).writePos = buffer.compact.writePos := by
    unfold growFor
    split <;> rfl
  unfold append
  split
  · exact Nat.le_add_right _ _
  · simp only [put, hgrow]
    omega

theorem writePos_consume_le (buffer : HttpConnectionBuffer) (count : ℕ) :
    (buffer.consume count).writePos ≤ buffer.writePos := by
  unfold consume
  split
  · exact Nat.zero_le _
  · exact le_rfl

/-- The common part of `append` and `receive`. -/
theorem request_sound_iff (h : buffer.Valid) {count : ℕ} {data : Bytes} {operation : Operation}
    (hdata : data.length ≤ count)
    (hperform : buffer.perform operation =
      if maxCapacity < buffer.size + count then (some false, buffer)
      else (some true, (buffer.compact.growFor count).put data))
    (hqueue : QueueStep buffer.contents operation (some true) (buffer.contents ++ data) ↔
      buffer.size + count ≤ maxCapacity)
    (hrefuse : QueueStep buffer.contents operation (some false) buffer.contents ↔
      maxCapacity < buffer.size + count)
    (hinside : (buffer.size + count ≤ maxCapacity →
        (buffer.compact.growFor count).writePos + count ≤
          (buffer.compact.growFor count).capacity) → buffer.WritesInside operation)
    (hneeded : buffer.Sound operation → buffer.size + count ≤ maxCapacity →
        (buffer.compact.growFor count).writePos + count ≤ (buffer.compact.growFor count).capacity) :
    (buffer.Sound operation ↔ buffer.RoomFor count) ∧
      (buffer.Sound operation → (buffer.perform operation).2.Valid) := by
  by_cases haccepted : buffer.size + count ≤ maxCapacity
  · rw [if_neg (Nat.not_lt.mpr haccepted)] at hperform
    have hroom : buffer.Sound operation → buffer.RoomFor count := by
      intro hsound
      by_contra hfull
      have hfits := hneeded hsound haccepted
      have hbeyond := (no_room h hfull).2
      omega
    refine ⟨⟨hroom, ?_⟩, ?_⟩
    · intro hroom
      obtain ⟨hvalid, hcontents⟩ := write_spec h hdata haccepted hroom
      refine ⟨h.toBounded, ?_, hinside fun _ => (prepare_spec h haccepted hroom).2.2, ?_⟩
      · rw [hperform]
        exact hvalid.toBounded
      · rw [hperform]
        simp only [hcontents]
        exact hqueue.mpr haccepted
    · intro hsound
      rw [hperform]
      exact (write_spec h hdata haccepted (hroom hsound)).1
  · have hrefused := Nat.lt_of_not_le haccepted
    rw [if_pos hrefused] at hperform
    have hsound : buffer.Sound operation := by
      refine ⟨h.toBounded, ?_, hinside fun hfits => absurd hfits haccepted, ?_⟩
      · rw [hperform]
        exact h.toBounded
      · rw [hperform]
        exact hrefuse.mpr hrefused
    refine ⟨iff_of_true hsound fun hfits => absurd hfits haccepted, ?_⟩
    intro _
    rw [hperform]
    exact h

theorem append_sound_iff (h : buffer.Valid) (data : Bytes) :
    (buffer.Sound (.append data) ↔ buffer.Roomy (.append data)) ∧
      (buffer.Sound (.append data) → (buffer.perform (.append data)).2.Valid) := by
  have hlength := length_contents h
  apply request_sound_iff h (le_refl _)
  · simp only [perform, append]
    split <;> rfl
  · rw [← hlength]
    exact ⟨fun | .append hfits => hfits, .append⟩
  · rw [← hlength]
    exact ⟨fun | .refuse hfull => hfull, .refuse⟩
  · intro hfits hsuccess
    simp only [append] at hsuccess
    split at hsuccess
    · cases hsuccess
    · rename_i haccepted
      exact hfits (Nat.le_of_not_lt haccepted)
  · intro hsound haccepted
    apply hsound.inside
    rw [append, if_neg (Nat.not_lt.mpr haccepted)]

theorem receive_sound_iff (h : buffer.Valid) {hint : ℕ} {data : Bytes}
    (hlegal : data.length ≤ hint) :
    (buffer.Sound (.receive hint data) ↔ buffer.Roomy (.receive hint data)) ∧
      (buffer.Sound (.receive hint data) → (buffer.perform (.receive hint data)).2.Valid) := by
  have hlength := length_contents h
  apply request_sound_iff h hlegal
  · simp only [perform, ensureWritable]
    split <;> rfl
  · rw [← hlength]
    exact ⟨fun | .receive hfits => hfits, .receive⟩
  · rw [← hlength]
    exact ⟨fun | .full hfull => hfull, .full⟩
  · intro hfits hsuccess
    simp only [ensureWritable] at hsuccess ⊢
    split at hsuccess
    · cases hsuccess
    · rename_i haccepted
      simp only [if_neg haccepted, writableSize]
      omega
  · intro hsound haccepted
    have hensure : buffer.ensureWritable hint = (true, buffer.compact.growFor hint) :=
      if_neg (Nat.not_lt.mpr haccepted)
    have hroom := hsound.inside (by rw [hensure])
    have hafter := hsound.after.inside
    simp only [hensure, writableSize] at hroom
    simp only [perform, hensure, if_true, put] at hafter
    omega

/-- A step of a valid buffer is sound exactly when there is room for it. -/
theorem sound_iff (h : buffer.Valid) {operation : Operation} (hlegal : buffer.Legal operation) :
    (buffer.Sound operation ↔ buffer.Roomy operation) ∧
      (buffer.Sound operation → (buffer.perform operation).2.Valid) := by
  cases operation with
  | append data => exact append_sound_iff h _
  | receive hint data => exact receive_sound_iff h hlegal
  | consume count =>
    have hvalid := consume_valid h count
    refine ⟨iff_of_true ⟨h.toBounded, hvalid.toBounded, trivial, ?_⟩ trivial,
      fun _ => hvalid⟩
    simp only [perform]
    rw [contents_consume]
    exact .consume
  | clear =>
    have hspec := clear_spec h
    refine ⟨iff_of_true ⟨h.toBounded, hspec.1.toBounded, trivial, ?_⟩ trivial,
      fun _ => hspec.1⟩
    simp only [perform]
    rw [hspec.2]
    exact .clear

theorem legalRun_sound_iff (h : buffer.Valid) (operations : List Operation)
    (hlegal : LegalRun perform Legal buffer operations) :
    LegalRun perform Sound buffer operations ↔ LegalRun perform Roomy buffer operations :=
  legalRun_iff Valid (fun _ _ hvalid hlegal => sound_iff hvalid hlegal) _ h hlegal

/-- A run is one of the bounded queue, within the block, exactly as long as there
is room for the bytes where they lie. -/
theorem run_sound_iff (operations : List Operation)
    (hlegal : LegalRun perform Legal create operations) :
    LegalRun perform Sound create operations ↔ LegalRun perform Roomy create operations :=
  legalRun_sound_iff create_valid _ hlegal

theorem run_sound_iff_short :
    LegalRun perform Legal create [.append [1, 2, 3], .consume 1, .receive 64 [4]] ∧
      LegalRun perform Sound create [.append [1, 2, 3], .consume 1, .receive 64 [4]] := by
  have hlegal : LegalRun perform Legal create [.append [1, 2, 3], .consume 1, .receive 64 [4]] := by
    refine ⟨trivial, ?_, ?_, trivial⟩
    · simp only [Legal]
      decide
    · simp only [Legal]
      decide
  refine ⟨hlegal, (run_sound_iff _ hlegal).mpr ⟨?_, trivial, ?_, trivial⟩⟩
  · intro _ _
    decide
  · intro _ _
    decide

def brimful (data : Bytes) : List Operation :=
  [.append data, .consume 8388608, .append [0]]

theorem append_full {data : Bytes} (hdata : data.length = maxCapacity) :
    (create.append data).2.capacity = maxCapacity ∧ (create.append data).2.readPos = 0 ∧
      (create.append data).2.writePos = maxCapacity := by
  have hcompact : create.compact = create := rfl
  have happend : create.append data = (true, (create.growFor data.length).put data) := by
    rw [append, if_neg, hcompact]
    rw [hdata]
    decide
  have hdouble : create.writePos + maxCapacity ≤ doubleUntil (create.writePos + maxCapacity)
      create.capacity (create.writePos + maxCapacity) :=
    le_doubleUntil create_valid.positive (Nat.le_add_left _ _)
  rw [happend, hdata]
  simp only [growFor, put, hdata]
  exact ⟨min_eq_right ((Nat.le_add_left _ _).trans hdouble), rfl, Nat.zero_add _⟩

theorem brimful_overflows {data : Bytes} (hdata : data.length = maxCapacity) :
    LegalRun perform Legal create (brimful data) ∧
      ¬ LegalRun perform Sound create (brimful data) := by
  obtain ⟨hcapacity, hread, hwrite⟩ := append_full hdata
  have hlegal : LegalRun perform Legal create (brimful data) := by
    refine ⟨trivial, ?_, trivial, trivial⟩
    simp only [Legal, perform, size, hread, hwrite]
    decide
  refine ⟨hlegal, ?_⟩
  rw [legalRun_sound_iff create_valid _ hlegal]
  rintro ⟨-, -, hroom, -⟩
  simp only [Roomy, RoomFor, perform, consume, size, hread, hwrite] at hroom
  rw [if_neg (by decide)] at hroom
  simp only [hcapacity] at hroom
  have hinside := hroom (by decide) (by decide)
  revert hinside
  decide

/-- The last byte is written behind the block. -/
theorem brimful_not_sound :
    LegalRun perform Legal create (brimful (List.replicate maxCapacity 0)) ∧
      ¬ LegalRun perform Sound create (brimful (List.replicate maxCapacity 0)) :=
  brimful_overflows length_replicate

end HttpConnectionBuffer

end AstraApi.Server
