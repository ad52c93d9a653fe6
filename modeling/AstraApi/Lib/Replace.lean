import Mathlib.Tactic

/-!
# Replacing the occurrences of a text

The occurrences of `old` are found from left to right and do not overlap.  A letter that
`old` does not have behind its first letter cuts a text: what stands in front of it is
replaced apart from what follows.
-/

namespace AstraApi.Replace

open List

variable {α : Type*} [DecidableEq α]

/-- Of the occurrence that was replaced last, `passed` letters are still to be passed. -/
def replaceFrom (old new : List α) : ℕ → List α → List α
  | _, [] => []
  | passed + 1, _ :: text => replaceFrom old new passed text
  | 0, c :: text =>
    if old <+: c :: text then new ++ replaceFrom old new (old.length - 1) text
    else c :: replaceFrom old new 0 text

/-- Every occurrence of `old`, which is not empty, gives way to `new`. -/
def replaceAll (old new text : List α) : List α := replaceFrom old new 0 text

variable {old new text front : List α}

@[simp]
theorem replaceAll_nil : replaceAll old new [] = [] := by
  rw [replaceAll, replaceFrom]

theorem replaceFrom_eq_drop (passed : ℕ) :
    replaceFrom old new passed text = replaceAll old new (text.drop passed) := by
  induction passed generalizing text with
  | zero => rfl
  | succ passed ih =>
    cases text with
    | nil => rw [replaceFrom, drop_nil, replaceAll_nil]
    | cons c text => rw [replaceFrom, ih, drop_succ_cons]

theorem replaceAll_keep {c : α} (h : ¬ old <+: c :: text) :
    replaceAll old new (c :: text) = c :: replaceAll old new text := by
  rw [replaceAll, replaceFrom, if_neg h]
  rfl

theorem replaceAll_found (hne : old ≠ []) (new text : List α) :
    replaceAll old new (old ++ text) = new ++ replaceAll old new text := by
  cases old with
  | nil => exact absurd rfl hne
  | cons first old =>
    have hstart : first :: old <+: first :: (old ++ text) := prefix_append _ _
    rw [cons_append, replaceAll, replaceFrom, if_pos hstart, replaceFrom_eq_drop,
      length_cons, Nat.add_sub_cancel, drop_left]

/-- A text ends, keeps its first letter or starts with an occurrence. -/
theorem replace_induction {motive : List α → Prop} (hne : old ≠ []) (nil : motive [])
    (keep : ∀ c text, ¬ old <+: c :: text → motive text → motive (c :: text))
    (found : ∀ text, motive text → motive (old ++ text)) (text : List α) : motive text := by
  induction h : text.length using Nat.strong_induction_on generalizing text with
  | _ length ih =>
    cases text with
    | nil => exact nil
    | cons c text =>
      by_cases hold : old <+: c :: text
      · obtain ⟨rest, hrest⟩ := hold
        rw [← hrest]
        have hlength : old.length + rest.length = length := by
          rw [← h, ← hrest, length_append]
        have hpos := length_pos_iff.mpr hne
        exact found _ (ih _ (by omega) _ rfl)
      · rw [length_cons] at h
        exact keep c _ hold (ih _ (by omega) _ rfl)

theorem replaceAll_of_not_infix (h : ¬ old <:+: text) : replaceAll old new text = text := by
  induction text with
  | nil => exact replaceAll_nil
  | cons c text ih =>
    rw [infix_cons_iff, not_or] at h
    rw [replaceAll_keep h.1, ih h.2]

/-- No occurrence starts where its first letter is missing. -/
theorem replaceAll_behind {first : α} (hfront : first ∉ front) (old new text : List α) :
    replaceAll (first :: old) new (front ++ text) =
      front ++ replaceAll (first :: old) new text := by
  induction front with
  | nil => rfl
  | cons c front ih =>
    rw [mem_cons, not_or] at hfront
    have hstart : ¬ first :: old <+: c :: (front ++ text) := by
      intro h
      exact hfront.1 (cons_prefix_cons.mp h).1
    rw [cons_append, replaceAll_keep hstart, ih hfront.2]
    rfl

omit [DecidableEq α] in
/-- An occurrence does not reach over a letter that it has at its start only. -/
theorem prefix_append_iff {first d : α} (hd : d ∉ old) {c : α} :
    first :: old <+: c :: front ++ d :: text ↔ first :: old <+: c :: front := by
  constructor
  · intro h
    rw [cons_append, cons_prefix_cons] at h
    obtain ⟨rfl, rest, hrest⟩ := h
    rw [cons_prefix_cons]
    refine ⟨rfl, ?_⟩
    rcases append_eq_append_iff.mp hrest with ⟨more, hmore, -⟩ | ⟨more, hmore, hdrop⟩
    · exact ⟨more, hmore.symm⟩
    · cases more with
      | nil =>
        rw [append_nil] at hmore
        rw [hmore]
      | cons e more =>
        have he : d = e := (List.cons.inj hdrop).1
        rw [hmore, he] at hd
        exact absurd (mem_append_right front mem_cons_self) hd
  · intro h
    exact h.trans (prefix_append _ _)

theorem replaceAll_append {first d : α} (hd : d ∉ old) (new front text : List α) :
    replaceAll (first :: old) new (front ++ d :: text) =
      replaceAll (first :: old) new front ++ replaceAll (first :: old) new (d :: text) := by
  induction front using replace_induction (cons_ne_nil first old) with
  | nil => rw [nil_append, replaceAll_nil, nil_append]
  | keep c front hkeep ih =>
    have hlonger : ¬ first :: old <+: c :: (front ++ d :: text) :=
      mt (prefix_append_iff hd).mp hkeep
    rw [cons_append, replaceAll_keep hlonger, replaceAll_keep hkeep, ih, cons_append]
  | found front ih =>
    rw [append_assoc, replaceAll_found (cons_ne_nil _ _),
      replaceAll_found (cons_ne_nil _ _), ih, append_assoc]

/-- Letters come only from the values that are put in. -/
theorem count_replaceAll {c : α} (hne : old ≠ []) (hc : c ∉ old) (new text : List α) :
    ∃ n, (replaceAll old new text).count c = text.count c + n * new.count c := by
  induction text using replace_induction hne with
  | nil => exact ⟨0, by rw [replaceAll_nil, Nat.zero_mul, Nat.add_zero]⟩
  | keep d text hkeep ih =>
    obtain ⟨n, hn⟩ := ih
    refine ⟨n, ?_⟩
    rw [replaceAll_keep hkeep, count_cons, count_cons, hn]
    omega
  | found text ih =>
    obtain ⟨n, hn⟩ := ih
    refine ⟨n + 1, ?_⟩
    rw [replaceAll_found hne, count_append, count_append, hn,
      count_eq_zero_of_not_mem hc, Nat.succ_mul]
    omega

/-! ## One text after another -/

def replaceEach (pairs : List (List α × List α)) (text : List α) : List α :=
  pairs.foldl (fun text pair => replaceAll pair.1 pair.2 text) text

variable {pairs : List (List α × List α)}

@[simp]
theorem replaceEach_cons (pair : List α × List α) :
    replaceEach (pair :: pairs) text = replaceEach pairs (replaceAll pair.1 pair.2 text) := rfl

@[simp]
theorem replaceEach_nil : replaceEach pairs [] = [] := by
  induction pairs with
  | nil => rfl
  | cons pair pairs ih => rw [replaceEach_cons, replaceAll_nil, ih]

theorem replaceEach_append (earlier later : List (List α × List α)) (text : List α) :
    replaceEach (earlier ++ later) text = replaceEach later (replaceEach earlier text) :=
  foldl_append

theorem replaceEach_of_not_infix (h : ∀ pair ∈ pairs, ¬ pair.1 <:+: text) :
    replaceEach pairs text = text := by
  induction pairs with
  | nil => rfl
  | cons pair pairs ih =>
    rw [replaceEach_cons, replaceAll_of_not_infix (h _ mem_cons_self)]
    exact ih fun other hother => h _ (mem_cons_of_mem _ hother)

theorem replaceEach_separator {d : α} (h : ∀ pair ∈ pairs, pair.1 ≠ [] ∧ d ∉ pair.1)
    (front text : List α) :
    replaceEach pairs (front ++ d :: text) =
      replaceEach pairs front ++ d :: replaceEach pairs text := by
  induction pairs generalizing front text with
  | nil => rfl
  | cons pair pairs ih =>
    obtain ⟨hne, hd⟩ := h _ mem_cons_self
    obtain ⟨first, old, hpair⟩ := exists_cons_of_ne_nil hne
    rw [hpair, mem_cons, not_or] at hd
    have hstart : first ∉ [d] := by
      rw [mem_singleton]
      exact Ne.symm hd.1
    rw [replaceEach_cons, hpair, replaceAll_append hd.2, ← singleton_append (l := text),
      replaceAll_behind hstart, singleton_append,
      ih (fun other hother => h _ (mem_cons_of_mem _ hother)), replaceEach_cons,
      replaceEach_cons, hpair]

theorem count_replaceEach_le {c : α} (h : ∀ pair ∈ pairs, pair.1 ≠ [] ∧ c ∉ pair.1)
    (text : List α) : text.count c ≤ (replaceEach pairs text).count c := by
  induction pairs generalizing text with
  | nil => exact le_rfl
  | cons pair pairs ih =>
    obtain ⟨hne, hc⟩ := h _ mem_cons_self
    obtain ⟨n, hn⟩ := count_replaceAll hne hc pair.2 text
    have hlater := ih (fun other hother => h _ (mem_cons_of_mem _ hother))
      (replaceAll pair.1 pair.2 text)
    rw [replaceEach_cons]
    omega

theorem count_replaceEach {c : α} (h : ∀ pair ∈ pairs, pair.1 ≠ [] ∧ c ∉ pair.1)
    (hnew : ∀ pair ∈ pairs, c ∉ pair.2) (text : List α) :
    (replaceEach pairs text).count c = text.count c := by
  induction pairs generalizing text with
  | nil => rfl
  | cons pair pairs ih =>
    obtain ⟨hne, hc⟩ := h _ mem_cons_self
    obtain ⟨n, hn⟩ := count_replaceAll hne hc _ text
    rw [count_eq_zero_of_not_mem (hnew _ mem_cons_self), Nat.mul_zero] at hn
    rw [replaceEach_cons, ih (fun other hother => h _ (mem_cons_of_mem _ hother))
      (fun other hother => hnew _ (mem_cons_of_mem _ hother))]
    exact hn

/-- Two texts that are cut at a letter: the front has none of it, and the back has no more of
it on one side than on the other. -/
theorem append_cons_inj_of_count {d : α} {front' back back' : List α} (hfront : d ∉ front')
    (hcount : back'.count d ≤ back.count d) :
    front ++ d :: back = front' ++ d :: back' ↔ front = front' ∧ back = back' := by
  constructor
  · intro h
    have hcounts := congrArg (List.count d) h
    rw [count_append, count_append, count_cons_self, count_cons_self,
      count_eq_zero_of_not_mem hfront] at hcounts
    have hnone : d ∉ front := by
      apply count_eq_zero.mp
      omega
    have hsame := congrArg (List.takeWhile (· != d)) h
    have hcut : ∀ {part : List α}, d ∉ part → ∀ rest,
        (part ++ d :: rest).takeWhile (· != d) = part := by
      intro part hpart rest
      rw [takeWhile_append_of_pos, takeWhile_cons_of_neg (by simp), append_nil]
      intro c hc
      rw [bne_iff_ne]
      intro heq
      exact hpart (heq ▸ hc)
    rw [hcut hnone, hcut hfront] at hsame
    subst hsame
    exact ⟨rfl, (List.cons.inj (append_cancel_left h)).2⟩
  · rintro ⟨rfl, rfl⟩
    rfl

end AstraApi.Replace
