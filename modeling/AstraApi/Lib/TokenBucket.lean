import AstraApi.Lib.Simulation

/-!
# Token buckets

A bucket holds at most `capacity` tokens and is filled at a constant rate.  A request takes
one token or is refused.  Within any interval the admitted requests are at most the
capacity and what flows in meanwhile, and a bucket that was left alone for long enough is
as good as a new one.
-/

namespace AstraApi.TokenBucket

open List

variable {K : Type*} [Field K] [LinearOrder K]

structure Bucket (K : Type*) where
  tokens : K
  filled : K
  deriving DecidableEq

def Bucket.Within (capacity : K) (bucket : Bucket K) : Prop :=
  0 ≤ bucket.tokens ∧ bucket.tokens ≤ capacity

def full (capacity now : K) : Bucket K := ⟨capacity, now⟩

def refill (capacity rate : K) (bucket : Bucket K) (now : K) : Bucket K :=
  if bucket.filled < now then
    ⟨min capacity (bucket.tokens + (now - bucket.filled) * rate), now⟩
  else bucket

def take (bucket : Bucket K) : Bool × Bucket K :=
  if bucket.tokens < 1 then (false, bucket) else (true, { bucket with tokens := bucket.tokens - 1 })

/-- One request. -/
def draw (capacity rate : K) (bucket : Bucket K) (now : K) : Bool × Bucket K :=
  take (refill capacity rate bucket now)

def admitted (answers : List Bool) : K := answers.count true

section Step

variable {capacity rate now : K} {bucket : Bucket K}

theorem refill_full : refill capacity rate (full capacity now) now = full capacity now :=
  if_neg (lt_irrefl _)

theorem refill_filled (h : bucket.filled ≤ now) :
    (refill capacity rate bucket now).filled = now := by
  rw [refill]
  split
  · rfl
  · rename_i hlt
    exact le_antisymm h (not_lt.mp hlt)

theorem take_filled (bucket : Bucket K) : (take bucket).2.filled = bucket.filled := by
  rw [take]
  split <;> rfl

theorem draw_filled (h : bucket.filled ≤ now) : (draw capacity rate bucket now).2.filled = now := by
  rw [draw, take_filled, refill_filled h]

section Ordered

variable [IsStrictOrderedRing K]

theorem refill_tokens_le (hrate : 0 ≤ rate) (h : bucket.filled ≤ now) :
    (refill capacity rate bucket now).tokens ≤ bucket.tokens + (now - bucket.filled) * rate := by
  rw [refill]
  split
  · exact min_le_right _ _
  · exact le_add_of_nonneg_right (mul_nonneg (sub_nonneg.mpr h) hrate)

theorem within_refill (hcapacity : 0 ≤ capacity) (hrate : 0 ≤ rate)
    (hwithin : bucket.Within capacity) : (refill capacity rate bucket now).Within capacity := by
  rw [refill]
  split
  · rename_i hlt
    refine ⟨le_min hcapacity ?_, min_le_left _ _⟩
    exact add_nonneg hwithin.1 (mul_nonneg (sub_nonneg.mpr hlt.le) hrate)
  · exact hwithin

theorem refill_full_of_le (hrate : 0 ≤ rate) {origin : K}
    (horigin : origin ≤ now) :
    refill capacity rate (full capacity now) now = refill capacity rate (full capacity origin) now := by
  rw [refill_full, refill]
  split
  · rename_i hlt
    have hinflow : 0 ≤ (now - origin) * rate := mul_nonneg (sub_nonneg.mpr horigin) hrate
    rw [full, full, min_eq_left (le_add_of_nonneg_right hinflow)]
  · rename_i hlt
    rw [full, full, le_antisymm horigin (not_lt.mp hlt)]

theorem refill_eq_full (hwithin : 0 ≤ bucket.tokens) (hlt : bucket.filled < now)
    (hfull : capacity ≤ (now - bucket.filled) * rate) :
    refill capacity rate bucket now = full capacity now := by
  rw [refill, if_pos hlt, min_eq_left (hfull.trans (le_add_of_nonneg_left hwithin))]
  rfl

theorem take_tokens (bucket : Bucket K) :
    (take bucket).2.tokens + admitted [(take bucket).1] = bucket.tokens := by
  rw [take, admitted]
  split <;> simp

theorem within_take (hwithin : bucket.Within capacity) : (take bucket).2.Within capacity := by
  rw [take]
  split
  · exact hwithin
  · rename_i hone
    exact ⟨sub_nonneg.mpr (not_lt.mp hone), (sub_le_self _ zero_le_one).trans hwithin.2⟩

theorem within_draw (hcapacity : 0 ≤ capacity) (hrate : 0 ≤ rate)
    (hwithin : bucket.Within capacity) : (draw capacity rate bucket now).2.Within capacity :=
  within_take (within_refill hcapacity hrate hwithin)

end Ordered

end Step

/-! ## Runs -/

variable (capacity rate : K)

def answers (bucket : Bucket K) (times : List K) : List Bool :=
  (Simulation.run (draw capacity rate) bucket times).1

theorem answers_cons (bucket : Bucket K) (now : K) (times : List K) :
    answers capacity rate bucket (now :: times) = (draw capacity rate bucket now).1 ::
        answers capacity rate (draw capacity rate bucket now).2 times := rfl

def admittedWithin (first last : K) (bucket : Bucket K) (times : List K) : ℕ :=
  ((times.zip (answers capacity rate bucket times)).filter fun entry =>
    decide (first ≤ entry.1 ∧ entry.1 ≤ last) && entry.2).length

/-- What a bucket can still give until `last`, counted from `first` on. -/
def supply (first last : K) (bucket : Bucket K) : K :=
  if first ≤ bucket.filled then bucket.tokens + max 0 (last - bucket.filled) * rate
  else capacity + (last - first) * rate

theorem admittedWithin_cons (first last : K) (bucket : Bucket K) (now : K) (times : List K) :
    admittedWithin capacity rate first last bucket (now :: times) =
      (if (first ≤ now ∧ now ≤ last) ∧ (draw capacity rate bucket now).1 = true then 1 else 0) +
        admittedWithin capacity rate first last (draw capacity rate bucket now).2 times := by
  rw [admittedWithin, answers_cons, zip_cons_cons, filter_cons, admittedWithin]
  by_cases hnow : (first ≤ now ∧ now ≤ last) ∧ (draw capacity rate bucket now).1 = true
  · rw [if_pos hnow, if_pos (by simpa using hnow), length_cons, Nat.add_comm]
  · rw [if_neg hnow, if_neg (by simpa using hnow), Nat.zero_add]

theorem admittedWithin_eq_zero {first last : K} (bucket : Bucket K) {times : List K}
    (h : ∀ now ∈ times, last < now) : admittedWithin capacity rate first last bucket times = 0 := by
  induction times generalizing bucket with
  | nil => rfl
  | cons now times ih =>
    have hnow : ¬ ((first ≤ now ∧ now ≤ last) ∧ (draw capacity rate bucket now).1 = true) :=
      fun hin => absurd (h _ mem_cons_self) (not_lt.mpr hin.1.2)
    rw [admittedWithin_cons, if_neg hnow, Nat.zero_add]
    exact ih _ fun next hnext => h _ (mem_cons_of_mem _ hnext)

section Bound

variable {capacity rate} [IsStrictOrderedRing K]

theorem supply_nonneg (hcapacity : 0 ≤ capacity) (hrate : 0 ≤ rate) {first last : K}
    (hinterval : first ≤ last) {bucket : Bucket K} (hwithin : bucket.Within capacity) :
    0 ≤ supply capacity rate first last bucket := by
  rw [supply]
  split
  · exact add_nonneg hwithin.1 (mul_nonneg (le_max_left _ _) hrate)
  · exact add_nonneg hcapacity (mul_nonneg (sub_nonneg.mpr hinterval) hrate)

/-- Whatever the state of the bucket, no more than the capacity and the inflow. -/
theorem supply_le (hrate : 0 ≤ rate) {first last : K} (hinterval : first ≤ last)
    {bucket : Bucket K} (hwithin : bucket.Within capacity) :
    supply capacity rate first last bucket ≤ capacity + (last - first) * rate := by
  rw [supply]
  split
  · rename_i hfirst
    apply add_le_add hwithin.2
    apply mul_le_mul_of_nonneg_right _ hrate
    exact max_le (sub_nonneg.mpr hinterval) (sub_le_sub_left hfirst _)
  · exact le_rfl

theorem supply_draw_le (hrate : 0 ≤ rate) (hcapacity : 0 ≤ capacity) {first last now : K}
    {bucket : Bucket K} (hwithin : bucket.Within capacity) (hfilled : bucket.filled ≤ now)
    (hfirst : first ≤ now) (hlast : now ≤ last) :
    supply capacity rate first last (draw capacity rate bucket now).2 +
        admitted [(draw capacity rate bucket now).1] ≤
      supply capacity rate first last bucket := by
  have hpaid := take_tokens (refill capacity rate bucket now)
  have hrefill : (refill capacity rate bucket now).tokens ≤
      bucket.tokens + (now - bucket.filled) * rate := refill_tokens_le hrate hfilled
  have hcap : (refill capacity rate bucket now).tokens ≤ capacity :=
    (within_refill hcapacity hrate hwithin).2
  have hafter : supply capacity rate first last (draw capacity rate bucket now).2 =
      (draw capacity rate bucket now).2.tokens + (last - now) * rate := by
    rw [supply, draw_filled hfilled, if_pos hfirst, max_eq_right (sub_nonneg.mpr hlast)]
  have hspent : (draw capacity rate bucket now).2.tokens + (last - now) * rate +
      admitted [(draw capacity rate bucket now).1] =
        (refill capacity rate bucket now).tokens + (last - now) * rate := by
    rw [← hpaid, draw]
    ring
  rw [hafter, hspent, supply]
  split
  · calc
      (refill capacity rate bucket now).tokens + (last - now) * rate
        ≤ bucket.tokens + (now - bucket.filled) * rate + (last - now) * rate :=
        add_le_add_left hrefill _
      _ = bucket.tokens + (last - bucket.filled) * rate := by ring
      _ ≤ bucket.tokens + max 0 (last - bucket.filled) * rate := by
        apply add_le_add_right
        exact mul_le_mul_of_nonneg_right (le_max_right _ _) hrate
  · calc
      (refill capacity rate bucket now).tokens + (last - now) * rate
        ≤ capacity + (last - now) * rate := add_le_add_left hcap _
      _ ≤ capacity + (last - first) * rate := by
        apply add_le_add_right
        exact mul_le_mul_of_nonneg_right (sub_le_sub_left hfirst _) hrate

/-- Requests in the order of time are admitted only from the supply. -/
theorem admittedWithin_le_supply (hcapacity : 0 ≤ capacity) (hrate : 0 ≤ rate)
    {first last : K} (hinterval : first ≤ last) {bucket : Bucket K}
    (hwithin : bucket.Within capacity) {times : List K}
    (hsorted : (bucket.filled :: times).Pairwise (· ≤ ·)) :
    (admittedWithin capacity rate first last bucket times : K) ≤
      supply capacity rate first last bucket := by
  induction times generalizing bucket with
  | nil =>
    rw [show admittedWithin capacity rate first last bucket [] = 0 from rfl, Nat.cast_zero]
    exact supply_nonneg hcapacity hrate hinterval hwithin
  | cons now times ih =>
    obtain ⟨hfilled, hrest⟩ := pairwise_cons.mp hsorted
    have hnow := hfilled _ mem_cons_self
    have hbelow := ih (within_draw hcapacity hrate hwithin) (by rw [draw_filled hnow]; exact hrest)
    rw [admittedWithin_cons, Nat.cast_add]
    by_cases hfirst : first ≤ now
    · by_cases hlast : now ≤ last
      · have hpaid := supply_draw_le hrate hcapacity hwithin hnow hfirst hlast
        have hcount : ((if (first ≤ now ∧ now ≤ last) ∧
            (draw capacity rate bucket now).1 = true then 1 else 0 : ℕ) : K) =
              admitted [(draw capacity rate bucket now).1] := by
          cases hanswer : (draw capacity rate bucket now).1 with
          | true => simp [admitted, hfirst, hlast]
          | false => simp [admitted]
        rw [hcount, add_comm]
        exact (add_le_add_left hbelow _).trans hpaid
      · have hover : ∀ next ∈ times, last < next := fun next hnext =>
          lt_of_lt_of_le (not_le.mp hlast) ((pairwise_cons.mp hrest).1 next hnext)
        rw [if_neg fun h => hlast h.1.2, admittedWithin_eq_zero _ _ _ hover,
          Nat.cast_zero, add_zero]
        exact supply_nonneg hcapacity hrate hinterval hwithin
    · have hearly : ¬ first ≤ bucket.filled := fun h => hfirst (h.trans hnow)
      rw [if_neg fun h => hfirst h.1.1, Nat.cast_zero, zero_add]
      rw [supply, draw_filled hnow, if_neg hfirst] at hbelow
      rw [supply, if_neg hearly]
      exact hbelow

/-- Requests that come no faster than tokens are all admitted. -/
theorem answers_spaced (hcapacity : 1 ≤ capacity) {bucket : Bucket K} {times : List K}
    (hfirst : ∀ now ∈ times, bucket.filled ≤ now ∧ 1 ≤ (refill capacity rate bucket now).tokens)
    (hspaced : times.Pairwise fun now next => now < next ∧ 1 ≤ (next - now) * rate) :
    ∀ answer ∈ answers capacity rate bucket times, answer = true := by
  induction times generalizing bucket with
  | nil => simp [answers, Simulation.run]
  | cons now times ih =>
    obtain ⟨hnow, hspaced⟩ := pairwise_cons.mp hspaced
    obtain ⟨hle, htokens⟩ := hfirst now mem_cons_self
    rw [answers_cons, forall_mem_cons, draw, take, if_neg htokens.not_gt]
    refine ⟨rfl, ih (fun next hnext => ?_) hspaced⟩
    obtain ⟨hlt, hgap⟩ := hnow next hnext
    have hfilled : (refill capacity rate bucket now).filled = now := refill_filled hle
    rw [← hfilled] at hlt hgap
    generalize refill capacity rate bucket now = filled at *
    rw [refill, if_pos hlt]
    exact ⟨hlt.le, le_min hcapacity (hgap.trans (le_add_of_nonneg_left (sub_nonneg.mpr htokens)))⟩

end Bound

end AstraApi.TokenBucket
