import Mathlib.Tactic

/-!
# Capacities that double

A buffer that grows on demand doubles its capacity until a request fits.
-/

namespace AstraApi.Doubling

def doubleUntil : ℕ → ℕ → ℕ → ℕ
  | 0, capacity, _ => capacity
  | fuel + 1, capacity, needed =>
    if capacity < needed then doubleUntil fuel (capacity * 2) needed else capacity

theorem doubleUntil_power (fuel k needed : ℕ) :
    ∃ k', doubleUntil fuel (2 ^ k) needed = 2 ^ k' := by
  induction fuel generalizing k with
  | zero => exact ⟨k, rfl⟩
  | succ fuel ih =>
    simp only [doubleUntil]
    split
    · exact ih (k + 1)
    · exact ⟨k, rfl⟩

theorem le_doubleUntil {fuel capacity needed : ℕ} (hpos : 0 < capacity)
    (hfuel : needed ≤ capacity + fuel) : needed ≤ doubleUntil fuel capacity needed := by
  induction fuel generalizing capacity with
  | zero => simpa [doubleUntil] using hfuel
  | succ fuel ih =>
    simp only [doubleUntil]
    split
    · exact ih (by omega) (by omega)
    · omega

theorem doubleUntil_le (fuel : ℕ) {k m needed : ℕ} (hneeded : needed ≤ 2 ^ m)
    (hk : 2 ^ k ≤ 2 ^ m) : doubleUntil fuel (2 ^ k) needed ≤ 2 ^ m := by
  induction fuel generalizing k with
  | zero => exact hk
  | succ fuel ih =>
    simp only [doubleUntil]
    split
    · rename_i hless
      have hlt : k < m := (Nat.pow_lt_pow_iff_right (by norm_num)).mp (hless.trans_le hneeded)
      exact ih (Nat.pow_le_pow_right (by norm_num) hlt)
    · exact hk

/-! ## Limited growth -/

/-- Some doubling holds `needed`.  Every capacity after the first has to be allowed. -/
def Reaches (allowed : ℕ → Prop) (capacity needed : ℕ) : Prop :=
  ∃ k, needed ≤ capacity * 2 ^ k ∧ (k = 0 ∨ allowed (capacity * 2 ^ k))

theorem reaches_of_le (allowed : ℕ → Prop) {capacity needed : ℕ} (h : needed ≤ capacity) :
    Reaches allowed capacity needed :=
  ⟨0, by simpa using h, Or.inl rfl⟩

/-- A capacity that is too small is doubled.  What allows a capacity allows a smaller one. -/
theorem reaches_double_iff {allowed : ℕ → Prop}
    (hallowed : ∀ {small large}, small ≤ large → allowed large → allowed small)
    {capacity needed : ℕ} (h : capacity < needed) :
    Reaches allowed capacity needed ↔
      allowed (capacity * 2) ∧ Reaches allowed (capacity * 2) needed := by
  have hpow (k : ℕ) : capacity * 2 * 2 ^ k = capacity * 2 ^ (k + 1) := by ring
  constructor
  · rintro ⟨k, hfits, hk⟩
    cases k with
    | zero => exact absurd hfits (by omega)
    | succ k =>
      rw [← hpow] at hfits hk
      have hgrown : allowed (capacity * 2 * 2 ^ k) := hk.resolve_left (Nat.succ_ne_zero k)
      have hle : capacity * 2 ≤ capacity * 2 * 2 ^ k :=
        Nat.le_mul_of_pos_right _ (Nat.two_pow_pos k)
      exact ⟨hallowed hle hgrown, k, hfits, Or.inr hgrown⟩
  · rintro ⟨hdouble, k, hfits, hk⟩
    refine ⟨k + 1, hpow k ▸ hfits, Or.inr ?_⟩
    rcases hk with rfl | hk
    · simpa using hdouble
    · exact hpow k ▸ hk

end AstraApi.Doubling
