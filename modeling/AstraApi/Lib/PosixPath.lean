import AstraApi.Lib.Bytes
import AstraApi.Lib.Words
import Mathlib.Data.List.TakeWhile

/-!
# Paths

`join` and `normpath` of `posixpath` on lists of letters.  A normalised path is its
leading slashes and its parts: no part is empty or a dot, and two dots only come first and
only in a relative path.  A directory is in front of a path as a text exactly if its parts
are, or if the path goes on inside the name of the directory.
-/

namespace AstraApi.PosixPath

open List

variable {α : Type*} [DecidableEq α] (sep dot : α)

def dotdot : List α := [dot, dot]

/-- Two leading slashes are kept, more are one. -/
def slashes (path : List α) : ℕ :=
  let count := (path.takeWhile (· == sep)).length
  if count = 2 then 2 else min count 1

/-- The loop of `normpath` over the components. -/
def pushPart (rooted : Bool) (parts : List (List α)) (part : List α) : List (List α) :=
  if part = [] ∨ part = [dot] then parts
  else if part ≠ dotdot dot ∨ (rooted = false ∧ parts = []) ∨ parts.getLast? = some (dotdot dot) then
    parts ++ [part]
  else parts.dropLast

def rooted (path : List α) : Bool := slashes sep path != 0

def pathParts (path : List α) : List (List α) :=
  (path.splitOn sep).foldl (pushPart dot (rooted sep path)) []

def render (slashes : ℕ) (parts : List (List α)) : List α :=
  if List.replicate slashes sep ++ [sep].intercalate parts = [] then [dot]
  else List.replicate slashes sep ++ [sep].intercalate parts

def normpath (path : List α) : List α := render sep dot (slashes sep path) (pathParts sep dot path)

def join (front back : List α) : List α :=
  if back.head? = some sep then back
  else if front = [] ∨ front.getLast? = some sep then front ++ back
  else front ++ sep :: back

/-! ## Parts -/

structure Canonical (rooted : Bool) (parts : List (List α)) : Prop where
  proper : ∀ part ∈ parts, part ≠ [] ∧ part ≠ [dot] ∧ sep ∉ part
  climbs : ∃ count names, parts = List.replicate count (dotdot dot) ++ names ∧
    dotdot dot ∉ names ∧ (rooted = true → count = 0)

variable {sep dot}

omit [DecidableEq α] in
theorem canonical_nil (rooted : Bool) : Canonical sep dot rooted [] where
  proper := by simp
  climbs := ⟨0, [], rfl, not_mem_nil, fun _ => rfl⟩

theorem Canonical.pushPart {rooted : Bool} {parts : List (List α)}
    (h : Canonical sep dot rooted parts) {part : List α} (hpart : sep ∉ part) :
    Canonical sep dot rooted (pushPart dot rooted parts part) := by
  obtain ⟨count, names, hparts, hnames, hrooted⟩ := h.climbs
  rw [PosixPath.pushPart]
  split
  · exact h
  · rename_i hskip
    rw [not_or] at hskip
    split
    · rename_i hkeep
      refine ⟨?_, ?_⟩
      · intro other hother
        rw [mem_append, mem_singleton] at hother
        rcases hother with hother | rfl
        · exact h.proper _ hother
        · exact ⟨hskip.1, hskip.2, hpart⟩
      · by_cases hup : part = dotdot dot
        · -- two dots are kept behind two dots, or at the start of a relative path
          have hnil : names = [] := by
            rcases hkeep with hne | ⟨-, hempty⟩ | hlast
            · exact absurd hup hne
            · rw [hparts] at hempty
              exact (append_eq_nil_iff.mp hempty).2
            · by_contra hne
              rw [hparts, getLast?_append_of_ne_nil _ hne] at hlast
              exact hnames (mem_of_getLast? hlast)
          refine ⟨count + 1, [], ?_, not_mem_nil, ?_⟩
          · rw [hparts, hnil, hup, append_nil, append_nil, replicate_succ']
          · intro hroot
            rcases hkeep with hne | ⟨hnot, -⟩ | hlast
            · exact absurd hup hne
            · rw [hroot] at hnot
              cases hnot
            · rw [hparts, hnil, hrooted hroot] at hlast
              cases hlast
        · refine ⟨count, names ++ [part], by rw [hparts, append_assoc], ?_, hrooted⟩
          rw [mem_append, mem_singleton, not_or]
          exact ⟨hnames, fun heq => hup heq.symm⟩
    · rename_i hkeep
      simp only [not_or, not_not] at hkeep
      refine ⟨fun other hother => h.proper _ (mem_of_mem_dropLast hother), ?_⟩
      by_cases hnil : names = []
      · -- only two dots: nothing is left to go up from
        have hzero : count = 0 := by
          by_contra hne
          apply hkeep.2.2
          rw [hparts, hnil, append_nil, getLast?_replicate, if_neg hne]
        refine ⟨0, [], ?_, not_mem_nil, fun _ => rfl⟩
        rw [hparts, hnil, hzero]
        rfl
      · refine ⟨count, names.dropLast, ?_, fun hmem => hnames (mem_of_mem_dropLast hmem),
          hrooted⟩
        rw [hparts, dropLast_append_of_ne_nil hnil]

theorem canonical_foldl {rooted : Bool} {parts : List (List α)}
    (h : Canonical sep dot rooted parts) {more : List (List α)} (hmore : ∀ part ∈ more, sep ∉ part) :
    Canonical sep dot rooted (more.foldl (pushPart dot rooted) parts) := by
  induction more generalizing parts with
  | nil => exact h
  | cons part more ih =>
    exact ih (h.pushPart (hmore _ mem_cons_self))
      fun other hother => hmore _ (mem_cons_of_mem _ hother)

theorem canonical_pathParts (sep dot : α) (path : List α) :
    Canonical sep dot (rooted sep path) (pathParts sep dot path) :=
  canonical_foldl (canonical_nil _) fun _ hpart => (Words.of_mem_splitOn hpart).1

omit [DecidableEq α] in
theorem Canonical.front {rooted : Bool} {front parts : List (List α)}
    (h : Canonical sep dot rooted (front ++ dotdot dot :: parts)) :
    rooted = false ∧ ∀ part ∈ front, part = dotdot dot := by
  obtain ⟨count, names, hparts, hnames, hrooted⟩ := h.climbs
  rcases append_eq_append_iff.mp hparts with ⟨more, hfront, hnamed⟩ | ⟨more, hfront, hnamed⟩
  · constructor
    · cases hroot : rooted with
      | false => rfl
      | true =>
        rw [hrooted hroot, replicate_zero] at hfront
        rw [(append_eq_nil_iff.mp hfront.symm).2, nil_append] at hnamed
        rw [← hnamed] at hnames
        exact absurd mem_cons_self hnames
    · intro part hpart
      apply eq_of_mem_replicate (n := count)
      rw [hfront]
      exact mem_append_left more hpart
  · rw [hnamed] at hnames
    exact absurd (mem_append_right more mem_cons_self) hnames

omit [DecidableEq α] in
theorem Canonical.up_first {rooted : Bool} {front more : List (List α)}
    (h : Canonical sep dot rooted (front ++ more)) (hup : dotdot dot ∈ more) :
    ∃ rest, more = dotdot dot :: rest := by
  obtain ⟨before, after, rfl⟩ := append_of_mem hup
  cases before with
  | nil => exact ⟨after, rfl⟩
  | cons part before =>
    rw [← append_assoc] at h
    rw [h.front.2 part (mem_append_right front mem_cons_self)]
    exact ⟨before ++ dotdot dot :: after, rfl⟩

theorem foldl_pushPart {rooted : Bool} {front parts : List (List α)}
    (h : Canonical sep dot rooted (front ++ parts)) :
    parts.foldl (pushPart dot rooted) front = front ++ parts := by
  induction parts generalizing front with
  | nil => rw [foldl_nil, append_nil]
  | cons part parts ih =>
    have hproper := h.proper _ (mem_append_right _ mem_cons_self)
    have hkeep : part ≠ dotdot dot ∨ (rooted = false ∧ front = []) ∨
        front.getLast? = some (dotdot dot) := by
      by_cases hup : part = dotdot dot
      · rw [hup] at h
        obtain ⟨hroot, hfront⟩ := h.front
        rcases eq_nil_or_concat' front with hnil | ⟨before, last, hlast⟩
        · exact Or.inr (Or.inl ⟨hroot, hnil⟩)
        · have hdots : last = dotdot dot := hfront _ (by rw [hlast]; simp)
          right
          right
          rw [hlast, hdots, getLast?_concat]
      · exact Or.inl hup
    rw [foldl_cons, pushPart, if_neg (not_or.mpr ⟨hproper.1, hproper.2.1⟩), if_pos hkeep]
    have hsnoc : front ++ part :: parts = front ++ [part] ++ parts := by
      rw [append_assoc, singleton_append]
    rw [hsnoc] at h ⊢
    exact ih h

/-! ## A normalised path is read back -/

omit [DecidableEq α] in
theorem intercalate_head? {parts : List (List α)}
    (h : ∀ part ∈ parts, part ≠ [] ∧ part ≠ [dot] ∧ sep ∉ part) :
    ([sep].intercalate parts).head? ≠ some sep := by
  cases parts with
  | nil => simp
  | cons part parts =>
    obtain ⟨hne, -, hsep⟩ := h part mem_cons_self
    obtain ⟨c, rest, rfl⟩ := exists_cons_of_ne_nil hne
    have hc : c ≠ sep := fun heq => hsep (heq ▸ mem_cons_self)
    cases parts with
    | nil => simpa using hc
    | cons next parts => simpa [intercalate_cons_cons] using hc

omit [DecidableEq α] in
theorem eq_nil_of_intercalate {parts : List (List α)}
    (h : ∀ part ∈ parts, part ≠ [] ∧ part ≠ [dot] ∧ sep ∉ part)
    (hnil : [sep].intercalate parts = []) : parts = [] := by
  cases parts with
  | nil => rfl
  | cons part parts =>
    have hne := (h part mem_cons_self).1
    cases parts with
    | nil => simp [hne] at hnil
    | cons next parts => simp [intercalate_cons_cons] at hnil

theorem takeWhile_of_head? {text : List α} (h : text.head? ≠ some sep) :
    text.takeWhile (· == sep) = [] := by
  cases text with
  | nil => rfl
  | cons c text =>
    apply takeWhile_cons_of_neg
    rw [beq_iff_eq]
    intro heq
    exact h (congrArg _ heq)

theorem slashes_replicate {count : ℕ} (hcount : count ≤ 2) {text : List α}
    (h : text.head? ≠ some sep) : slashes sep (List.replicate count sep ++ text) = count := by
  have htake : (List.replicate count sep ++ text).takeWhile (· == sep) =
      List.replicate count sep := by
    rw [takeWhile_append_of_pos, takeWhile_of_head? h, append_nil]
    intro c hc
    rw [eq_of_mem_replicate hc]
    exact beq_self_eq_true _
  rw [slashes, htake, length_replicate]
  split <;> omega

theorem slashes_le (path : List α) : slashes sep path ≤ 2 := by
  rw [slashes]
  split <;> omega

theorem splitOn_replicate (count : ℕ) (text : List α) :
    (List.replicate count sep ++ text).splitOn sep =
      List.replicate count [] ++ text.splitOn sep := by
  induction count with
  | zero => rfl
  | succ count ih =>
    rw [replicate_succ, cons_append, splitOn_cons_eq_if_modifyHead, if_pos (beq_self_eq_true _), ih]
    rfl

theorem foldl_empty (rooted : Bool) (count : ℕ) (parts : List (List α)) :
    (List.replicate count []).foldl (pushPart dot rooted) parts = parts := by
  induction count with
  | zero => rfl
  | succ count ih =>
    rw [replicate_succ, foldl_cons, pushPart, if_pos (Or.inl rfl), ih]

section Render

variable (hdot : dot ≠ sep) {count : ℕ} (hcount : count ≤ 2) {parts : List (List α)}
  (h : Canonical sep dot (count != 0) parts)

include hdot hcount h

theorem slashes_render : slashes sep (render sep dot count parts) = count := by
  rw [render]
  split
  · rename_i hnil
    have hzero : count = 0 := by simpa using (append_eq_nil_iff.mp hnil).1
    have hhead : ([dot] : List α).head? ≠ some sep := by simpa using hdot
    rw [slashes, takeWhile_of_head? hhead, hzero]
    rfl
  · exact slashes_replicate hcount (intercalate_head? h.proper)

theorem pathParts_render : pathParts sep dot (render sep dot count parts) = parts := by
  have hrooted : rooted sep (render sep dot count parts) = (count != 0) := by
    rw [rooted, slashes_render hdot hcount h]
  rw [pathParts, hrooted, render]
  split
  · rename_i hnil
    have htext := (append_eq_nil_iff.mp hnil).2
    have hparts := eq_nil_of_intercalate h.proper htext
    have hsplit : ([dot] : List α).splitOn sep = [[dot]] :=
      splitOn_eq_singleton (by simpa using hdot.symm)
    rw [hsplit, hparts, foldl_cons, pushPart, if_pos (Or.inr rfl)]
    rfl
  · rw [splitOn_replicate, foldl_append, foldl_empty]
    by_cases hparts : parts = []
    · rw [hparts]
      exact foldl_empty _ 1 []
    · rw [splitOn_intercalate _ (fun part hpart => (h.proper _ hpart).2.2) hparts]
      exact foldl_pushPart h

end Render

theorem slashes_normpath (hdot : dot ≠ sep) (path : List α) :
    slashes sep (normpath sep dot path) = slashes sep path :=
  slashes_render hdot (slashes_le _) (canonical_pathParts _ _ _)

theorem pathParts_normpath (hdot : dot ≠ sep) (path : List α) :
    pathParts sep dot (normpath sep dot path) = pathParts sep dot path :=
  pathParts_render hdot (slashes_le _) (canonical_pathParts _ _ _)

/-! ## Joining -/

theorem slashes_join (front : List α) {back : List α} (hback : back.head? ≠ some sep) :
    slashes sep (join sep front back) = slashes sep front := by
  have htake : (join sep front back).takeWhile (· == sep) = front.takeWhile (· == sep) := by
    rw [join, if_neg hback]
    by_cases hall : ∀ c ∈ front, (c == sep) = true
    · have hend : front = [] ∨ front.getLast? = some sep := by
        rcases eq_nil_or_concat' front with hnil | ⟨before, last, hlast⟩
        · exact Or.inl hnil
        · have hsep : last = sep := eq_of_beq (hall _ (by rw [hlast]; simp))
          right
          rw [hlast, hsep, getLast?_concat]
      rw [if_pos hend, takeWhile_append_of_pos hall, takeWhile_of_head? hback,
        append_nil, takeWhile_eq_self_iff.mpr hall]
    · have hshort (rest : List α) : (front ++ rest).takeWhile (· == sep) =
          front.takeWhile (· == sep) := by
        rw [takeWhile_append, if_neg]
        intro hlength
        exact hall (takeWhile_eq_self_iff.mp ((List.takeWhile_prefix _).eq_of_length hlength))
      split
      · exact hshort _
      · exact hshort _
  rw [slashes, slashes, htake]

theorem pathParts_join (front : List α) {back : List α} (hback : back.head? ≠ some sep) :
    pathParts sep dot (join sep front back) =
      (back.splitOn sep).foldl (pushPart dot (rooted sep front)) (pathParts sep dot front) := by
  have hrooted : rooted sep (join sep front back) = rooted sep front := by
    rw [rooted, rooted, slashes_join _ hback]
  rw [pathParts, hrooted, join, if_neg hback]
  split
  · rename_i hend
    rcases hend with rfl | hlast
    · rfl
    · obtain ⟨before, rfl⟩ := getLast?_eq_some_iff.mp hlast
      rw [append_assoc, singleton_append, splitOn_append_cons_self,
        foldl_append, pathParts, splitOn_append_cons_self, foldl_append]
      rfl
  · rw [splitOn_append_cons_self, foldl_append]
    rfl

/-! ## A directory in front of a path -/

/-- The path goes on inside the last name of the directory. -/
def Lengthened (parts other : List (List α)) : Prop :=
  ∃ front last suffix more, suffix ≠ [] ∧ parts = front ++ [last] ∧
    other = front ++ (last ++ suffix) :: more

/-- The path goes up from the directory. -/
def Climbed (dot : α) (parts other : List (List α)) : Prop :=
  ∃ more, other = parts ++ dotdot dot :: more

def Inside (sep dot : α) (directory path : List α) : Prop :=
  slashes sep path = slashes sep directory ∧
    ∃ below, below ≠ [] ∧ dotdot dot ∉ below ∧
      pathParts sep dot path = pathParts sep dot directory ++ below

omit [DecidableEq α] in
theorem prefix_intercalate {front : List (List α)} {last : List α} {other : List (List α)}
    (hproper : ∀ part ∈ front ++ [last], part ≠ [] ∧ part ≠ [dot] ∧ sep ∉ part)
    (hother : ∀ part ∈ other, part ≠ [] ∧ part ≠ [dot] ∧ sep ∉ part)
    (h : [sep].intercalate (front ++ [last]) <+: [sep].intercalate other) :
    ∃ suffix more, other = front ++ (last ++ suffix) :: more := by
  induction front generalizing other with
  | nil =>
    obtain ⟨hne, -, hsep⟩ := hproper last (mem_singleton_self last)
    rw [nil_append, intercalate_singleton] at h
    cases other with
    | nil => exact absurd (prefix_nil.mp h) hne
    | cons part more =>
      have hpart : last <+: part := by
        cases more with
        | nil => rwa [intercalate_singleton] at h
        | cons next more =>
          rw [intercalate_cons_cons, append_assoc] at h
          obtain ⟨rest, hrest⟩ := h
          rcases append_eq_append_iff.mp hrest with ⟨tail, htail, -⟩ | ⟨tail, htail, hsame⟩
          · exact ⟨tail, htail.symm⟩
          · cases tail with
            | nil => exact (htail.trans (append_nil part)) ▸ prefix_rfl
            | cons c tail =>
              rw [htail, ← (List.cons.inj hsame).1] at hsep
              exact absurd (mem_append_right part mem_cons_self) hsep
      obtain ⟨suffix, hsuffix⟩ := hpart
      exact ⟨suffix, more, by rw [hsuffix]; rfl⟩
  | cons first front ih =>
    have hfirst := (hproper first mem_cons_self).2.2
    obtain ⟨next, rest, hnext⟩ := exists_cons_of_ne_nil
      (append_ne_nil_of_right_ne_nil front (cons_ne_nil last []))
    rw [cons_append, hnext, intercalate_cons_cons, append_assoc, ← hnext] at h
    obtain ⟨behind, hbehind⟩ := h
    cases other with
    | nil => simp at hbehind
    | cons part more =>
      have hpart := (hother part mem_cons_self).2.2
      cases more with
      | nil =>
        rw [intercalate_singleton] at hbehind
        rw [← hbehind] at hpart
        simp at hpart
      | cons after more =>
        rw [intercalate_cons_cons, append_assoc, append_assoc, append_assoc] at hbehind
        obtain ⟨rfl, hrest⟩ := append_delimiter_inj hfirst hpart hbehind
        obtain ⟨suffix, tail, htail⟩ := ih
          (fun other hmem => hproper other (mem_cons_of_mem first hmem))
          (fun other hmem => hother other (mem_cons_of_mem first hmem))
          ⟨behind, hrest⟩
        exact ⟨suffix, tail, by rw [htail]; rfl⟩

theorem prefix_of_render (hdot : dot ≠ sep) {count : ℕ} {parts other : List (List α)}
    (hproper : ∀ part ∈ parts, part ≠ [] ∧ part ≠ [dot] ∧ sep ∉ part) (hne : parts ≠ [])
    (h : render sep dot count parts <+: render sep dot count other) :
    [sep].intercalate parts <+: [sep].intercalate other := by
  have htext : [sep].intercalate parts ≠ [] := fun hnil => hne (eq_nil_of_intercalate hproper hnil)
  rw [render, if_neg fun hnil => htext (append_eq_nil_iff.mp hnil).2, render] at h
  split at h
  · rename_i hnil
    have hzero : count = 0 := by simpa using (append_eq_nil_iff.mp hnil).1
    rw [hzero, replicate_zero, nil_append] at h
    -- the only text that starts a dot is the dot, which is no part
    have hsingle : [sep].intercalate parts = [dot] := by
      obtain ⟨rest, hrest⟩ := h
      obtain ⟨c, text, hcons⟩ := exists_cons_of_ne_nil htext
      rw [hcons, cons_append] at hrest
      obtain ⟨hc, htail⟩ := List.cons.inj hrest
      rw [hcons, hc, (append_eq_nil_iff.mp htail).1]
    have hsplit := splitOn_intercalate _ (fun part hpart => (hproper _ hpart).2.2) hne
    rw [hsingle, splitOn_eq_singleton (by simpa using hdot.symm)] at hsplit
    exact absurd rfl (hproper [dot] (by rw [← hsplit]; exact mem_singleton_self _)).2.1
  · exact (prefix_append_right_inj _).mp h

section Directory

variable {directory path : List α}

theorem inside_of_append (hslashes : slashes sep path = slashes sep directory)
    {below : List (List α)} (hne : below ≠ [])
    (hparts : pathParts sep dot path = pathParts sep dot directory ++ below) :
    Inside sep dot directory path ∨
      Climbed dot (pathParts sep dot directory) (pathParts sep dot path) := by
  by_cases hup : dotdot dot ∈ below
  · have hcanonical := canonical_pathParts sep dot path
    rw [hparts] at hcanonical
    obtain ⟨more, rfl⟩ := hcanonical.up_first hup
    exact Or.inr ⟨more, hparts⟩
  · exact Or.inl ⟨hslashes, below, hne, hup, hparts⟩

/-- What it means that the normalised directory starts the normalised path. -/
theorem prefix_normpath_cases (hdot : dot ≠ sep)
    (hslashes : slashes sep path = slashes sep directory)
    (h : normpath sep dot directory <+: normpath sep dot path) :
    pathParts sep dot path = pathParts sep dot directory ∨ Inside sep dot directory path ∨
      Lengthened (pathParts sep dot directory) (pathParts sep dot path) ∨
      Climbed dot (pathParts sep dot directory) (pathParts sep dot path) := by
  have hproper := (canonical_pathParts sep dot directory).proper
  have hother := (canonical_pathParts sep dot path).proper
  have hbelow : ∀ below, pathParts sep dot path = pathParts sep dot directory ++ below →
      pathParts sep dot path = pathParts sep dot directory ∨ Inside sep dot directory path ∨
        Climbed dot (pathParts sep dot directory) (pathParts sep dot path) := by
    intro below hparts
    by_cases hne : below = []
    · rw [hne, append_nil] at hparts
      exact Or.inl hparts
    · exact Or.inr (inside_of_append hslashes hne hparts)
  rcases eq_nil_or_concat' (pathParts sep dot directory) with hnil | ⟨front, last, hparts⟩
  · have hcases := hbelow _ (by rw [hnil, nil_append])
    tauto
  · have htext : [sep].intercalate (front ++ [last]) <+:
        [sep].intercalate (pathParts sep dot path) := by
      rw [normpath, normpath, hslashes] at h
      rw [← hparts]
      exact prefix_of_render hdot hproper (by rw [hparts]; simp) h
    rw [hparts] at hproper
    obtain ⟨suffix, more, hpath⟩ := prefix_intercalate hproper hother htext
    by_cases hsuffix : suffix = []
    · rw [hsuffix, append_nil] at hpath
      have hcases := hbelow _ (by rw [hpath, hparts, append_assoc]; rfl)
      tauto
    · exact Or.inr (Or.inr (Or.inl ⟨front, last, suffix, more, hsuffix, hparts, hpath⟩))

omit [DecidableEq α] in
theorem Lengthened.not_prefix {parts other : List (List α)} (h : Lengthened parts other) :
    ¬ parts <+: other := by
  obtain ⟨front, last, suffix, more, hsuffix, rfl, rfl⟩ := h
  rintro ⟨rest, hrest⟩
  rw [append_assoc, append_cancel_left_eq] at hrest
  have hlast : last = last ++ suffix := (List.cons.inj hrest).1
  exact hsuffix (self_eq_append_right.mp hlast)

/-- Such a path is not below the directory. -/
theorem not_inside (h : pathParts sep dot path = pathParts sep dot directory ∨
    Lengthened (pathParts sep dot directory) (pathParts sep dot path) ∨
    Climbed dot (pathParts sep dot directory) (pathParts sep dot path)) :
    ¬ Inside sep dot directory path := by
  rintro ⟨-, below, hne, hup, hparts⟩
  rcases h with hsame | hlonger | ⟨more, hclimbed⟩
  · rw [hsame] at hparts
    exact hne (self_eq_append_right.mp hparts)
  · exact hlonger.not_prefix ⟨below, hparts.symm⟩
  · rw [hclimbed, append_cancel_left_eq] at hparts
    rw [← hparts] at hup
    exact hup mem_cons_self

end Directory

/-! ## A name below a directory -/

theorem inside_normpath_iff (hdot : dot ≠ sep) {directory path : List α} :
    Inside sep dot directory (normpath sep dot path) ↔ Inside sep dot directory path := by
  rw [Inside, Inside, slashes_normpath hdot, pathParts_normpath hdot]

section Name

variable {name : List α} (hname : name ≠ [] ∧ name ≠ [dot] ∧ sep ∉ name)
  (hup : name ≠ dotdot dot)

include hname

theorem slashes_join_name (path : List α) :
    slashes sep (join sep path name) = slashes sep path := by
  apply slashes_join
  intro hhead
  exact hname.2.2 (mem_of_mem_head? hhead)

include hup

theorem pathParts_join_name (path : List α) :
    pathParts sep dot (join sep path name) = pathParts sep dot path ++ [name] := by
  have hhead : name.head? ≠ some sep := fun h => hname.2.2 (mem_of_mem_head? h)
  rw [pathParts_join _ hhead, splitOn_eq_singleton hname.2.2, foldl_cons,
    foldl_nil, pushPart, if_neg (not_or.mpr ⟨hname.1, hname.2.1⟩), if_pos (Or.inl hup)]

theorem inside_join_name {directory path : List α}
    (h : Inside sep dot directory path ∨ slashes sep path = slashes sep directory ∧
      pathParts sep dot path = pathParts sep dot directory) :
    Inside sep dot directory (join sep path name) := by
  have hlast : dotdot dot ∉ [name] := by
    rw [mem_singleton]
    exact fun heq => hup heq.symm
  rcases h with ⟨hslashes, below, hne, hbelow, hparts⟩ | ⟨hslashes, hparts⟩
  · refine ⟨(slashes_join_name hname _).trans hslashes, below ++ [name], by simp, ?_, ?_⟩
    · rw [mem_append, not_or]
      exact ⟨hbelow, hlast⟩
    · rw [pathParts_join_name hname hup, hparts, append_assoc]
  · refine ⟨(slashes_join_name hname _).trans hslashes, [name], cons_ne_nil _ _, hlast, ?_⟩
    rw [pathParts_join_name hname hup, hparts]

end Name

end AstraApi.PosixPath
