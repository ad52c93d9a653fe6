import AstraApi.Lib.Simulation
import AstraApi.WebSocket.RingBuffer

/-!
# The ring buffer as a queue

All operations of `WsRingBuffer`, with the ones that the delivery loop does not
use, and the bounded byte queue that they implement.  Positions are natural
numbers here.  In the code they are machine words that wrap, which changes
neither an index nor a difference because the capacity divides the word size.
-/

namespace AstraApi.WebSocket

open List
open Circular Doubling Simulation

namespace WsRingBuffer

/-! ## The other operations -/

def readableRegion (ring : WsRingBuffer) : Bytes :=
  if ring.readPos = ring.writePos then []
  else
    let readIdx := ring.index ring.readPos
    let writeIdx := ring.index ring.writePos
    if readIdx < writeIdx then (ring.buffer.drop readIdx).take (writeIdx - readIdx)
    else (ring.buffer.drop readIdx).take (ring.capacity - readIdx)

/-- Move to a smaller buffer when less than a quarter is used. -/
def maybeShrink (ring : WsRingBuffer) : WsRingBuffer :=
  if ring.capacity ≤ defaultCapacity then ring
  else if ring.capacity / 4 ≤ ring.readable then ring
  else
    let used := ring.readable
    let target := if defaultCapacity < used * 2 then used * 2 else defaultCapacity
    let newCap := doubleUntil target defaultCapacity target
    if ring.capacity ≤ newCap then ring
    else
      { ring with
        buffer := ring.copyOut ++ List.replicate (newCap - used) 0
        capacity := newCap
        readPos := 0
        writePos := used }

def reset (ring : WsRingBuffer) : WsRingBuffer :=
  { ring with readPos := 0, writePos := 0 }

theorem maybeShrink_spec {ring : WsRingBuffer} (hvalid : ring.Valid) :
    ring.maybeShrink.Valid ∧ ring.maybeShrink.contents = ring.contents ∧
      ring.maybeShrink.maxCapacity = ring.maxCapacity := by
  simp only [maybeShrink]
  split
  · exact ⟨hvalid, rfl, rfl⟩
  · split
    · exact ⟨hvalid, rfl, rfl⟩
    · generalize htarget : (if defaultCapacity < ring.readable * 2 then ring.readable * 2
        else defaultCapacity) = target
      split
      · exact ⟨hvalid, rfl, rfl⟩
      · rename_i hsmaller
        have hused : ring.readable ≤ target := by
          split at htarget <;> omega
        have henough : target ≤ doubleUntil target defaultCapacity target :=
          le_doubleUntil (by decide) (by omega)
        have hpower : ∃ k, doubleUntil target defaultCapacity target = 2 ^ k :=
          (show defaultCapacity = 2 ^ 17 by rfl) ▸ doubleUntil_power _ 17 _
        have hmoved := relocated_spec hvalid hpower (hused.trans henough)
          ((Nat.le_of_not_le hsmaller).trans hvalid.limited)
        exact ⟨hmoved.1, hmoved.2, rfl⟩

theorem reset_spec {ring : WsRingBuffer} (hvalid : ring.Valid) :
    ring.reset.Valid ∧ ring.reset.contents = [] := by
  constructor
  · exact ⟨hvalid.power, hvalid.maxPower, hvalid.length_buffer, le_rfl, Nat.zero_le _,
      hvalid.limited⟩
  · simp [contents, window, readable, reset]

theorem readableRegion_spec {ring : WsRingBuffer} (hvalid : ring.Valid) :
    ring.readableRegion <+: ring.contents ∧ (ring.contents ≠ [] → ring.readableRegion ≠ []) := by
  have hreadable := readable_le_length hvalid
  have hwrite := readPos_add_readable hvalid
  simp only [readableRegion]
  split
  · rename_i hempty
    have hzero : ring.readable = 0 := by omega
    have hnil : ring.contents = [] := by simp [contents, window, hzero]
    exact ⟨List.nil_prefix, fun hne => absurd hnil hne⟩
  · rename_i hnonempty
    have hpos : 0 < ring.readable := by omega
    have hindex := Nat.mod_lt ring.readPos (show 0 < ring.buffer.length by omega)
    rw [index_eq_mod hvalid, index_eq_mod hvalid, ← hwrite, contents]
    split
    · rename_i hlt
      have hblock := window_of_lt hreadable hlt
      have hcount : (ring.readPos + ring.readable) % ring.buffer.length -
          ring.readPos % ring.buffer.length = ring.readable := by
        rw [← Nat.mod_add_mod] at hlt ⊢
        rcases hblock.1.lt_or_eq with hfits | hfull
        · rw [Nat.mod_eq_of_lt hfits, Nat.add_sub_cancel_left]
        · rw [hfull, Nat.mod_self] at hlt
          omega
      rw [hcount, ← hblock.2]
      refine ⟨prefix_rfl, ?_⟩
      exact id
    · rename_i hwraps
      have hblocks := window_of_not_lt hpos hreadable hwraps
      have hlength : (ring.buffer.drop (ring.readPos % ring.buffer.length)).length =
          ring.capacity - ring.readPos % ring.buffer.length := by
        rw [length_drop, hvalid.length_buffer]
      rw [← hlength, take_length, hblocks.2]
      refine ⟨prefix_append _ _, ?_⟩
      intro _ hnil
      have := congrArg List.length hnil
      rw [length_drop, length_nil] at this
      omega

/-- The initial capacity is cut to the maximum. -/
theorem create_spec (k m : ℕ) :
    (create (2 ^ k) (2 ^ m)).Valid ∧ (create (2 ^ k) (2 ^ m)).contents = [] ∧
      (create (2 ^ k) (2 ^ m)).maxCapacity = 2 ^ m := by
  rcases le_total k m with hle | hle
  · exact create_valid hle
  · have hpow : 2 ^ m ≤ 2 ^ k := Nat.pow_le_pow_right (by norm_num) hle
    have hlower : 2 ^ k ≤ doubleUntil (2 ^ k) 1 (2 ^ k) :=
      le_doubleUntil Nat.one_pos (by omega)
    have hcapacity : (create (2 ^ k) (2 ^ m)).capacity = 2 ^ m := by
      simp [create, min_eq_right (hpow.trans hlower)]
    refine ⟨⟨⟨m, hcapacity⟩, ⟨m, rfl⟩, ?_, le_rfl, ?_, hcapacity.le⟩, ?_, rfl⟩
    · simp [create]
    · simp [create, readable]
    · simp [create, contents, window, readable]

/-- `append` fails exactly when the queue would exceed the maximum. -/
theorem append_isSome_iff {ring : WsRingBuffer} (hvalid : ring.Valid) (data : Bytes) :
    (ring.append data).isSome ↔ ring.contents.length + data.length ≤ ring.maxCapacity := by
  constructor
  · intro hsome
    obtain ⟨ring', happend⟩ := Option.isSome_iff_exists.mp hsome
    obtain ⟨hvalid', hcontents, hmax⟩ := append_spec hvalid happend
    have hlength := length_contents hvalid'
    have hbounded := hvalid'.bounded
    have hlimited := hvalid'.limited
    rw [hcontents, length_append] at hlength
    omega
  · exact append_isSome hvalid

/-! ## Runs -/

inductive Operation where
  | append (data : Bytes)
  | consume (count : ℕ)
  | readableRegion
  | readableContiguous
  | maybeShrink
  | reset

inductive Answer where
  | done
  | accepted (success : Bool)
  | view (bytes : Bytes)
  deriving DecidableEq

def viewed (ring : WsRingBuffer) : Option ℕ → Bytes
  | none => []
  | some offset => (ring.buffer.drop offset).take ring.readable

def perform (ring : WsRingBuffer) : Operation → Answer × WsRingBuffer
  | .append data =>
    match ring.append data with
    | some ring => (.accepted true, ring)
    | none => (.accepted false, ring)
  | .consume count => (.done, ring.consume count)
  | .readableRegion => (.view ring.readableRegion, ring)
  | .readableContiguous =>
    let (ring, offset) := ring.readableContiguous
    (.view (ring.viewed offset), ring)
  | .maybeShrink => (.done, ring.maybeShrink)
  | .reset => (.done, ring.reset)

def Legal (ring : WsRingBuffer) : Operation → Prop
  | .consume count => count ≤ ring.readable
  | _ => True

instance (ring : WsRingBuffer) : DecidablePred ring.Legal
  | .consume count => inferInstanceAs (Decidable (count ≤ ring.readable))
  | .append _ | .readableRegion | .readableContiguous | .maybeShrink | .reset =>
    inferInstanceAs (Decidable True)

/-- The bounded queue that a ring buffer implements. -/
inductive QueueStep (limit : ℕ) (queue : Bytes) : Operation → Answer → Bytes → Prop
  | append {data : Bytes} (h : queue.length + data.length ≤ limit) :
      QueueStep limit queue (.append data) (.accepted true) (queue ++ data)
  | refuse {data : Bytes} (h : limit < queue.length + data.length) :
      QueueStep limit queue (.append data) (.accepted false) queue
  | consume {count : ℕ} (h : count ≤ queue.length) :
      QueueStep limit queue (.consume count) .done (queue.drop count)
  | region {bytes : Bytes} (h : bytes <+: queue) (hne : queue ≠ [] → bytes ≠ []) :
      QueueStep limit queue .readableRegion (.view bytes) queue
  | contiguous : QueueStep limit queue .readableContiguous (.view queue) queue
  | shrink : QueueStep limit queue .maybeShrink .done queue
  | reset : QueueStep limit queue .reset .done []

theorem append_step {ring : WsRingBuffer} (hvalid : ring.Valid) (data : Bytes) :
    let after := ring.perform (.append data)
    after.2.Valid ∧ after.2.maxCapacity = ring.maxCapacity ∧
      QueueStep ring.maxCapacity ring.contents (.append data) after.1 after.2.contents := by
  have hiff := append_isSome_iff hvalid data
  simp only [perform]
  cases happend : ring.append data with
  | some ring' =>
    obtain ⟨hvalid', hcontents, hmax⟩ := append_spec hvalid happend
    rw [happend] at hiff
    refine ⟨hvalid', hmax, ?_⟩
    rw [hcontents]
    exact .append (hiff.mp rfl)
  | none =>
    rw [happend] at hiff
    refine ⟨hvalid, rfl, .refuse ?_⟩
    exact Nat.lt_of_not_le fun hle => Bool.noConfusion (hiff.mpr hle)

theorem readableContiguous_step {ring : WsRingBuffer} (hvalid : ring.Valid) :
    let after := ring.perform .readableContiguous
    after.2.Valid ∧ after.2.maxCapacity = ring.maxCapacity ∧
      QueueStep ring.maxCapacity ring.contents .readableContiguous after.1 after.2.contents := by
  simp only [perform]
  rcases hview : ring.readableContiguous with ⟨ring', view⟩
  obtain ⟨hvalid', hcontents, hmax, hnone, hshows⟩ := readableContiguous_spec hvalid hview
  refine ⟨hvalid', hmax, ?_⟩
  have hviewed : ring'.viewed view = ring.contents := by
    cases view with
    | none => exact (hnone rfl).symm
    | some offset => exact ((hshows _ rfl).contents_eq.symm.trans hcontents)
  rw [hviewed, hcontents]
  exact .contiguous

/-- Every operation keeps the invariant and does what it does to the queue. -/
theorem perform_step {ring : WsRingBuffer} (hvalid : ring.Valid) {operation : Operation}
    (hlegal : ring.Legal operation) :
    let after := ring.perform operation
    after.2.Valid ∧ after.2.maxCapacity = ring.maxCapacity ∧
      QueueStep ring.maxCapacity ring.contents operation after.1 after.2.contents := by
  cases operation with
  | append data => exact append_step hvalid _
  | consume count =>
    have hcount : count ≤ ring.contents.length := by
      rw [length_contents hvalid]
      exact hlegal
    have hspec := consume_spec hvalid hcount
    have hmax : (ring.consume count).maxCapacity = ring.maxCapacity := by
      unfold consume
      split <;> rfl
    refine ⟨hspec.1, hmax, ?_⟩
    simp only [perform]
    rw [hspec.2]
    exact .consume hcount
  | readableRegion =>
    have hspec := readableRegion_spec hvalid
    exact ⟨hvalid, rfl, .region hspec.1 hspec.2⟩
  | readableContiguous => exact readableContiguous_step hvalid
  | maybeShrink =>
    have hspec := maybeShrink_spec hvalid
    refine ⟨hspec.1, hspec.2.2, ?_⟩
    simp only [perform]
    rw [hspec.2.1]
    exact .shrink
  | reset =>
    have hspec := reset_spec hvalid
    refine ⟨hspec.1, rfl, ?_⟩
    simp only [perform]
    exact .reset

/-- The ring buffer is a bounded byte queue. -/
theorem run_refines_queue (k m : ℕ) (operations : List Operation)
    (hlegal : LegalRun perform Legal (create (2 ^ k) (2 ^ m)) operations) :
    let after := run perform (create (2 ^ k) (2 ^ m)) operations
    Transitions (QueueStep (2 ^ m)) [] operations after.1 after.2.contents ∧
      (∃ j, after.2.capacity = 2 ^ j) ∧ after.2.readable ≤ after.2.capacity ∧
      after.2.capacity ≤ after.2.maxCapacity ∧ after.2.maxCapacity = 2 ^ m ∧
      after.2.contents.length = after.2.readable ∧
      ∀ data, (after.2.perform (.append data)).1 = .accepted false →
        (after.2.perform (.append data)).2 = after.2 := by
  intro after
  obtain ⟨hvalid, hempty, hmax⟩ := create_spec k m
  have hstep : ∀ (ring : WsRingBuffer) operation, (ring.Valid ∧ ring.maxCapacity = 2 ^ m) →
      ring.Legal operation →
      ((ring.perform operation).2.Valid ∧ (ring.perform operation).2.maxCapacity = 2 ^ m) ∧
        QueueStep (2 ^ m) ring.contents operation (ring.perform operation).1
          (ring.perform operation).2.contents := by
    intro ring operation hinv hlegal
    have hspec := perform_step hinv.1 hlegal
    rw [hinv.2] at hspec
    exact ⟨⟨hspec.1, hspec.2.1⟩, hspec.2.2⟩
  have hrun := run_refines _ _ hstep
    _ ⟨hvalid, hmax⟩ hlegal
  obtain ⟨⟨hvalid', hmax'⟩, htransitions⟩ := hrun
  refine ⟨htransitions, hvalid'.power, hvalid'.bounded, hvalid'.limited, hmax',
    length_contents hvalid', ?_⟩
  intro data hrefused
  simp only [perform] at hrefused ⊢
  cases happend : after.2.append data with
  | some ring => simp [happend] at hrefused
  | none => rfl

theorem run_refines_queue_wrapped :
    let operations : List Operation :=
      [.append [1, 2, 3], .consume 2, .append [4, 5], .readableRegion, .readableContiguous]
    LegalRun perform Legal (create 4 8) operations ∧ Transitions (QueueStep 8) [] operations
        [.accepted true, .done, .accepted true, .view [3, 4], .view [3, 4, 5]] [3, 4, 5] := by
  have hlegal : LegalRun perform Legal (create (2 ^ 2) (2 ^ 3))
      [.append [1, 2, 3], .consume 2, .append [4, 5], .readableRegion, .readableContiguous] :=
    ⟨trivial, by decide, trivial, trivial, trivial, trivial⟩
  exact ⟨hlegal, (run_refines_queue 2 3 _ hlegal).1⟩

end WsRingBuffer

end AstraApi.WebSocket
