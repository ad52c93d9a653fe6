import AstraApi.Lib.Json

/-!
# Writing JSON

Texts that spell a value wherever they stand, texts that spoil the text they stand
in, and how both are put together from smaller ones.
-/

namespace AstraApi.Json

open List Option
open Message (isDigit digitsValue)

/-! ## Numbers -/

/-- The exponent of a number. -/
structure Scale where
  marker : Byte
  sign : Option Bool
  digits : Bytes
  marker_eq : marker = 0x65 ∨ marker = 0x45
  digits_ne_nil : digits ≠ []
  isDigit_digits : ∀ b ∈ digits, isDigit b = true

/-- The text of a number in its parts.  The sign of the exponent says whether it is
negative. -/
structure Numeral where
  negative : Bool
  whole : Bytes
  fraction : Bytes
  scale : Option Scale
  whole_ne_nil : whole ≠ []
  isDigit_whole : ∀ b ∈ whole, isDigit b = true
  leading : whole.head? = some 0x30 → whole = [0x30]
  isDigit_fraction : ∀ b ∈ fraction, isDigit b = true

def Scale.signText (scale : Scale) : Bytes :=
  match scale.sign with
  | none => []
  | some true => [0x2d]
  | some false => [0x2b]

def Scale.text (scale : Scale) : Bytes := scale.marker :: (scale.signText ++ scale.digits)

def Scale.value (scale : Scale) : ℤ :=
  if scale.sign = some true then -(digitsValue scale.digits : ℤ) else digitsValue scale.digits

def Numeral.scaleText (numeral : Numeral) : Bytes :=
  match numeral.scale with
  | none => []
  | some scale => scale.text

def Numeral.scaleValue (numeral : Numeral) : ℤ :=
  match numeral.scale with
  | none => 0
  | some scale => scale.value

def Numeral.fractionText (numeral : Numeral) : Bytes :=
  if numeral.fraction = [] then [] else 0x2e :: numeral.fraction

def Numeral.text (numeral : Numeral) : Bytes :=
  (if numeral.negative then [0x2d] else []) ++ numeral.whole ++ numeral.fractionText ++
    numeral.scaleText

def Numeral.value (numeral : Numeral) : ℚ :=
  let magnitude := digitsValue (numeral.whole ++ numeral.fraction) *
    (10 : ℚ) ^ (numeral.scaleValue - numeral.fraction.length)
  if numeral.negative then -magnitude else magnitude

/-- What does not go on with a number. -/
def Stops (rest : Bytes) : Prop :=
  ∀ b ∈ rest.head?, isDigit b = false ∧ b ∉ [0x2e, 0x65, (0x45 : Byte)]

variable {rest tail escaped : Bytes} {b : Byte} {texts : List Bytes}
  {chars name : Text}

theorem readDigits_append {digits : Bytes} (hne : digits ≠ [])
    (hdigits : ∀ b ∈ digits, isDigit b = true) (hrest : ∀ b ∈ rest.head?, isDigit b = false) :
    readDigits (digits ++ rest) = some (digits, rest) := by
  have htake : (digits ++ rest).takeWhile isDigit = digits := by
    rw [takeWhile_append_of_pos hdigits]
    cases rest with
    | nil => exact append_nil _
    | cons b rest =>
      rw [takeWhile_cons_of_neg (by simp [hrest b rfl]), append_nil]
  have hdrop : (digits ++ rest).dropWhile isDigit = rest := by
    rw [dropWhile_append_of_pos hdigits]
    cases rest with
    | nil => rfl
    | cons b rest => exact dropWhile_cons_of_neg (by simp [hrest b rfl])
  rw [readDigits, htake, hdrop, if_neg hne]

theorem ne_of_isDigit {c : Byte} (hb : isDigit b = true) (hc : isDigit c = false) : b ≠ c := by
  rintro rfl
  rw [hb] at hc
  cases hc

theorem readExponent_scaleText (numeral : Numeral) (hrest : Stops rest) :
    readExponent (numeral.scaleText ++ rest) = some (numeral.scaleValue, rest) := by
  rw [Numeral.scaleText, Numeral.scaleValue]
  cases numeral.scale with
  | none =>
    rw [readExponent, if_neg]
    · rfl
    · rintro (hhead | hhead)
      · exact (hrest _ hhead).2 (by decide)
      · exact (hrest _ hhead).2 (by decide)
  | some scale =>
    have hdigits := readDigits_append scale.digits_ne_nil scale.isDigit_digits
      (fun b hb => (hrest b hb).1)
    have hmarker (tail : Bytes) : (scale.marker :: tail).head? = some 0x65 ∨
        (scale.marker :: tail).head? = some 0x45 := by
      cases scale.marker_eq with
      | inl heq => exact .inl (congrArg _ heq)
      | inr heq => exact .inr (congrArg _ heq)
    cases hsign : scale.sign with
    | none =>
      obtain ⟨d, digits, hscale⟩ := exists_cons_of_ne_nil scale.digits_ne_nil
      have hd := scale.isDigit_digits d (by rw [hscale]; exact mem_cons_self)
      simp only [Scale.text, Scale.signText, Scale.value, hsign, cons_append, nil_append]
      rw [readExponent, if_pos (hmarker _), tail_cons, if_neg, if_neg, hdigits]
      · rfl
      · rw [hscale]
        exact fun h => ne_of_isDigit hd (by decide) (Option.some.inj h)
      · rw [hscale]
        exact fun h => ne_of_isDigit hd (by decide) (Option.some.inj h)
    | some negative =>
      cases negative with
      | true =>
        simp only [Scale.text, Scale.signText, Scale.value, hsign, cons_append, nil_append]
        rw [readExponent, if_pos (hmarker _), tail_cons, if_pos head?_cons, tail_cons, hdigits]
        rfl
      | false =>
        simp only [Scale.text, Scale.signText, Scale.value, hsign, cons_append, nil_append]
        rw [readExponent, if_pos (hmarker _), tail_cons,
          if_neg (by rw [head?_cons]; decide), if_pos head?_cons, tail_cons, hdigits]
        rfl

theorem stops_scaleText (numeral : Numeral) (hrest : Stops rest) :
    ∀ b ∈ (numeral.scaleText ++ rest).head?, isDigit b = false ∧ b ≠ 0x2e := by
  rw [Numeral.scaleText]
  cases numeral.scale with
  | none =>
    intro b hb
    refine ⟨(hrest b hb).1, ?_⟩
    rintro rfl
    exact (hrest _ hb).2 (by decide)
  | some scale =>
    intro b hb
    obtain rfl : scale.marker = b := Option.some.inj hb
    cases scale.marker_eq with
    | inl heq | inr heq => rw [heq]; decide

theorem readFraction_fractionText (numeral : Numeral)
    (hrest : ∀ b ∈ rest.head?, isDigit b = false ∧ b ≠ 0x2e) :
    readFraction (numeral.fractionText ++ rest) = some (numeral.fraction, rest) := by
  rw [Numeral.fractionText]
  split
  · next hnil =>
    rw [readFraction, if_neg, hnil]
    · rfl
    · exact fun h => (hrest _ h).2 rfl
  · next hne =>
    exact readDigits_append hne numeral.isDigit_fraction fun b hb => (hrest b hb).1

theorem readNumber_text (numeral : Numeral) (hrest : Stops rest) :
    readNumber (numeral.text ++ rest) = some (numeral.value, rest) := by
  have hscale := stops_scaleText numeral hrest
  have hwhole : ∀ b ∈ (numeral.fractionText ++ (numeral.scaleText ++ rest)).head?,
      isDigit b = false := by
    rw [Numeral.fractionText]
    split
    · exact fun b hb => (hscale b hb).1
    · intro b hb
      obtain rfl : 0x2e = b := Option.some.inj hb
      decide
  have hmagnitude : readMagnitude
      (numeral.whole ++ (numeral.fractionText ++ (numeral.scaleText ++ rest))) =
        some (digitsValue (numeral.whole ++ numeral.fraction) *
          (10 : ℚ) ^ (numeral.scaleValue - numeral.fraction.length), rest) := by
    rw [readMagnitude, readDigits_append numeral.whole_ne_nil numeral.isDigit_whole hwhole]
    simp only [bind_eq_bind, bind_some]
    rw [if_neg (fun h => h.2 (numeral.leading h.1)), readFraction_fractionText _ hscale,
      bind_some, readExponent_scaleText _ hrest, bind_some]
  rw [Numeral.text, Numeral.value]
  cases numeral.negative with
  | true =>
    simp only [if_true, append_assoc, cons_append, nil_append]
    rw [readNumber, if_pos head?_cons, tail_cons, hmagnitude]
    rfl
  | false =>
    obtain ⟨d, digits, heq⟩ := exists_cons_of_ne_nil numeral.whole_ne_nil
    have hd := numeral.isDigit_whole d (by rw [heq]; exact mem_cons_self)
    simp only [if_neg Bool.false_ne_true, append_assoc, nil_append]
    rw [readNumber, if_neg, hmagnitude]
    rw [heq]
    exact fun h => ne_of_isDigit hd (by decide) (Option.some.inj h)

/-! ## Texts that spell a value and texts that spoil one -/

/-- The text starts with neither space nor a closing bracket. -/
def Shown (text : Bytes) : Prop :=
  ∃ b tail, text = b :: tail ∧ isSpace b = false ∧ b ∉ [0x5d, (0x7d : Byte)]

structure Spells {α : Type} (reads : Bytes → α → Bytes → Prop) (text : Bytes) (value : α) :
    Prop where
  shown : Shown text
  reads : ∀ rest, Stops rest → reads (text ++ rest) value rest

/-- Reading fails, or ends before something that may not stand after a value. -/
def Blocked {α : Type} (reads : Bytes → α → Bytes → Prop) (text : Bytes) : Prop :=
  ∀ value tail, reads text value tail →
    ∃ b more, tail = b :: more ∧ isSpace b = false ∧ b ∉ [0x2c, 0x5d, (0x7d : Byte)]

structure Spoils {α : Type} (reads : Bytes → α → Bytes → Prop) (text : Bytes) : Prop where
  shown : Shown text
  blocked : ∀ rest, Stops rest → Blocked reads (text ++ rest)

theorem Shown.append {text : Bytes} (h : Shown text) (rest : Bytes) : Shown (text ++ rest) := by
  obtain ⟨b, tail, rfl, hspace, hb⟩ := h
  exact ⟨b, tail ++ rest, rfl, hspace, hb⟩

theorem Shown.skipSpace {text : Bytes} (h : Shown text) : skipSpace text = text := by
  obtain ⟨b, tail, rfl, hspace, -⟩ := h
  exact dropWhile_cons_of_neg (by simp [hspace])

theorem shown_of_digit (h : isDigit b = true) (tail : Bytes) : Shown (b :: tail) := by
  refine ⟨b, tail, rfl, ?_, ?_⟩
  · cases hspace : isSpace b with
    | false => rfl
    | true =>
      simp only [isSpace, decide_eq_true_eq] at hspace
      rcases hspace with rfl | rfl | rfl | rfl <;> exact absurd h (by decide)
  · intro hmem
    simp only [mem_cons, not_mem_nil, or_false] at hmem
    rcases hmem with rfl | rfl <;> exact absurd h (by decide)

theorem stops_cons (hb : b ∈ [0x2c, 0x5d, (0x7d : Byte)]) (rest : Bytes) :
    Stops (b :: rest) := by
  intro c hc
  obtain rfl : b = c := Option.some.inj hc
  simp only [mem_cons, not_mem_nil, or_false] at hb
  rcases hb with rfl | rfl | rfl <;> decide

theorem stops_nil : Stops [] := fun _ h => nomatch h

theorem Spells.parse {text : Bytes} {value : Json} (h : Spells Reads text value) :
    parse text = some value := by
  have hreads := h.reads [] stops_nil
  rw [append_nil] at hreads
  rw [parse_eq_some_iff, h.shown.skipSpace]
  exact ⟨[], hreads, rfl⟩

theorem Spoils.parse {text : Bytes} (h : Spoils Reads text) : parse text = none := by
  have hblocked := h.blocked [] stops_nil
  rw [append_nil] at hblocked
  cases hparse : Json.parse text with
  | none => rfl
  | some value =>
    obtain ⟨rest, hreads, hrest⟩ := parse_eq_some_iff.mp hparse
    rw [h.shown.skipSpace] at hreads
    obtain ⟨b, more, rfl, hspace, -⟩ := hblocked _ _ hreads
    rw [skipSpace, dropWhile_cons_of_neg (by simp [hspace])] at hrest
    cases hrest

theorem spoils_of_unreadable {α : Type} {reads : Bytes → α → Bytes → Prop} {text : Bytes}
    (hshown : Shown text) (h : ∀ rest value tail, Stops rest → ¬ reads (text ++ rest) value tail) :
    Spoils reads text :=
  ⟨hshown, fun _ hrest _ _ hreads => absurd hreads (h _ _ _ hrest)⟩

/-! ## Items between brackets -/

section Items

variable {α : Type} {reads : Bytes → α → Bytes → Prop} {close : Byte} {values : List α}

theorem Shown.intercalate {text : Bytes} (h : Shown text) (sep : Bytes) (texts : List Bytes) :
    Shown (sep.intercalate (text :: texts)) := by
  cases texts with
  | nil => rwa [intercalate_singleton]
  | cons next texts =>
    exact h.append _

theorem intercalate_append (text next : Bytes) (texts : List Bytes) (rest : Bytes) :
    (ascii ",").intercalate (text :: next :: texts) ++ rest =
      text ++ 0x2c :: ((ascii ",").intercalate (next :: texts) ++ rest) := by
  rw [intercalate_cons_cons, append_assoc, append_assoc]
  rfl

theorem spells_sequence (hclose : close ∈ [0x2c, 0x5d, (0x7d : Byte)])
    (hspace : isSpace close = false) {text : Bytes} {value : α} (hfirst : Spells reads text value)
    (hmore : List.Forall₂ (Spells reads) texts values) (rest : Bytes) :
    Sequence reads close ((ascii ",").intercalate (text :: texts) ++ close :: rest)
      (value :: values) rest := by
  induction hmore generalizing text value with
  | nil =>
    rw [intercalate_singleton]
    exact .last (hfirst.reads _ (stops_cons hclose _)) (dropWhile_cons_of_neg (by simp [hspace]))
  | @cons next nextValue texts values hnext _ ih =>
    rw [intercalate_append]
    refine .more (hfirst.reads _ (stops_cons (by decide) _)) rfl ?_
    rw [((hnext.shown.intercalate _ _).append _).skipSpace]
    exact ih hnext

theorem spells_items (hclose : close ∈ [0x5d, (0x7d : Byte)]) (hspace : isSpace close = false)
    (h : List.Forall₂ (Spells reads) texts values)
    (rest : Bytes) :
    Items reads close ((ascii ",").intercalate texts ++ close :: rest) values rest := by
  cases h with
  | nil => exact .empty (dropWhile_cons_of_neg (by simp [hspace]))
  | @cons text value texts values hfirst hmore =>
    have hshown := (hfirst.shown.intercalate (ascii ",") texts).append (close :: rest)
    refine .items ?_ ?_
    · rw [hshown.skipSpace]
      obtain ⟨b, tail, heq, -, hb⟩ := hshown
      rw [heq]
      rintro hhead
      rw [Option.some.inj hhead] at hb
      exact hb hclose
    · rw [hshown.skipSpace]
      exact spells_sequence (mem_cons_of_mem _ hclose) hspace hfirst hmore _

def Deterministic (reads : Bytes → α → Bytes → Prop) : Prop :=
  ∀ ⦃text value value' rest rest'⦄, reads text value rest → reads text value' rest' →
    value = value' ∧ rest = rest'

theorem Exact.deterministic {read : ℕ → Bytes → Option (α × Bytes)} (h : Exact reads read) :
    Deterministic reads := by
  intro text value value' rest rest' hreads hreads'
  have hread := (h hreads).2 text.length (by omega)
  rw [(h hreads').2 text.length (by omega)] at hread
  cases hread
  exact ⟨rfl, rfl⟩

theorem not_sequence_of_blocked (hclose : close ∈ [0x5d, (0x7d : Byte)]) {text : Bytes}
    (hblocked : Blocked reads text) : ¬ Sequence reads close text values tail := by
  have hfound {b : Byte} {item : α} {after next : Bytes} (hitem : reads text item after)
      (hskip : skipSpace after = b :: next) : b ∉ [0x2c, 0x5d, (0x7d : Byte)] := by
    obtain ⟨c, last, rfl, hspace, hc⟩ := hblocked _ _ hitem
    rw [skipSpace, dropWhile_cons_of_neg (by simp [hspace])] at hskip
    rwa [← (List.cons.inj hskip).1]
  intro h
  cases h with
  | last hitem hskip => exact hfound hitem hskip (mem_cons_of_mem _ hclose)
  | more hitem hskip _ => exact hfound hitem hskip (by decide)

theorem not_sequence_of_reads (hdeterministic : Deterministic reads)
    (hclose : close ∈ [0x5d, (0x7d : Byte)]) {text next : Bytes} {item : α}
    (hreads : reads text item (0x2c :: next))
    (hmore : ∀ values, ¬ Sequence reads close (skipSpace next) values tail) :
    ¬ Sequence reads close text values tail := by
  intro h
  cases h with
  | last hitem hskip =>
    obtain ⟨-, rfl⟩ := hdeterministic hreads hitem
    rw [← (List.cons.inj hskip).1] at hclose
    exact absurd hclose (by decide)
  | more hitem hskip hitems =>
    obtain ⟨-, rfl⟩ := hdeterministic hreads hitem
    obtain ⟨-, rfl⟩ := List.cons.inj hskip
    exact hmore _ hitems

theorem spoils_sequence (hdeterministic : Deterministic reads)
    (hclose : close ∈ [0x5d, (0x7d : Byte)])
    (hspells : ∀ text ∈ texts, (∃ value, Spells reads text value) ∨
      Spoils reads text) (hspoils : ∃ text ∈ texts, Spoils reads text) (rest : Bytes)
    (values : List α) :
    ¬ Sequence reads close ((ascii ",").intercalate texts ++ close :: rest) values tail := by
  induction texts generalizing values with
  | nil =>
    obtain ⟨text, hmem, -⟩ := hspoils
    cases hmem
  | cons text texts ih =>
    by_cases hfirst : Spoils reads text
    · apply not_sequence_of_blocked hclose
      cases texts with
      | nil =>
        rw [intercalate_singleton]
        exact hfirst.blocked _ (stops_cons (mem_cons_of_mem _ hclose) _)
      | cons next texts =>
        rw [intercalate_append]
        exact hfirst.blocked _ (stops_cons (by decide) _)
    · obtain ⟨value, hvalue⟩ := (hspells _ mem_cons_self).resolve_right hfirst
      obtain ⟨spoiled, hmem, hspoiled⟩ := hspoils
      cases hmem with
      | head => exact absurd hspoiled hfirst
      | tail _ hmem =>
        cases texts with
        | nil => cases hmem
        | cons next texts =>
          have hnext : Shown next := by
            cases hspells next (mem_cons_of_mem _ mem_cons_self) with
            | inl h => exact h.elim fun _ h => h.shown
            | inr h => exact h.shown
          rw [intercalate_append]
          refine not_sequence_of_reads hdeterministic hclose
            (hvalue.reads _ (stops_cons (by decide) _)) fun values => ?_
          rw [((hnext.intercalate _ _).append _).skipSpace]
          exact ih (fun text hmem => hspells _ (mem_cons_of_mem _ hmem)) ⟨spoiled, hmem, hspoiled⟩ _

theorem spoils_items (hdeterministic : Deterministic reads) (hclose : close ∈ [0x5d, (0x7d : Byte)])
    (hspells : ∀ text ∈ texts, (∃ value, Spells reads text value) ∨
      Spoils reads text) (hspoils : ∃ text ∈ texts, Spoils reads text) (rest : Bytes) :
    ¬ Items reads close ((ascii ",").intercalate texts ++ close :: rest) values tail := by
  cases texts with
  | nil =>
    obtain ⟨text, hmem, -⟩ := hspoils
    cases hmem
  | cons text texts =>
    have hshown : Shown text := by
      cases hspells text mem_cons_self with
      | inl h => exact h.elim fun _ h => h.shown
      | inr h => exact h.shown
    have hskip := (hshown.intercalate (ascii ",") texts).append (close :: rest)
    rintro (hempty | ⟨-, hitems⟩)
    · rw [hskip.skipSpace] at hempty
      obtain ⟨b, _, heq, -, hb⟩ := hskip
      rw [heq] at hempty
      rw [(List.cons.inj hempty).1] at hb
      exact hb hclose
    · rw [hskip.skipSpace] at hitems
      exact spoils_sequence hdeterministic hclose hspells hspoils _ _ hitems

end Items

/-! ## Values -/

theorem deterministic_reads : Deterministic Reads := exact_readValue.deterministic

theorem shown_cons (hb : b ∈ [0x6e, 0x74, 0x66, 0x22, 0x5b, 0x7b, (0x2d : Byte)])
    (tail : Bytes) : Shown (b :: tail) := by
  refine ⟨b, tail, rfl, ?_⟩
  simp only [mem_cons, not_mem_nil, or_false] at hb
  rcases hb with rfl | rfl | rfl | rfl | rfl | rfl | rfl <;> decide

theorem spells_literal {literal : Bytes} {value : Json}
    (hb : (b, literal, value) ∈ [(0x6e, ascii "ull", Json.null), (0x74, ascii "rue", .bool true),
      (0x66, ascii "alse", .bool false)]) : Spells Reads (b :: literal) value := by
  constructor
  · apply shown_cons
    simp only [mem_cons, not_mem_nil, or_false, Prod.mk.injEq] at hb
    rcases hb with ⟨rfl, -, -⟩ | ⟨rfl, -, -⟩ | ⟨rfl, -, -⟩ <;> decide
  · intro rest _
    exact (reads_literal_iff hb).mpr ⟨rfl, rfl⟩

theorem spells_null : Spells Reads (ascii "null") .null :=
  spells_literal (b := 0x6e) (.head _)

theorem spells_bool (value : Bool) :
    Spells Reads (if value then ascii "true" else ascii "false") (.bool value) := by
  cases value with
  | true => exact spells_literal (b := 0x74) (.tail _ (.head _))
  | false => exact spells_literal (b := 0x66) (.tail _ (.tail _ (.head _)))

/-- A number starts with its sign or with a digit. -/
theorem Numeral.exists_head (numeral : Numeral) :
    ∃ b tail, numeral.text = b :: tail ∧ (b = 0x2d ∨ isDigit b = true) := by
  obtain ⟨d, digits, heq⟩ := exists_cons_of_ne_nil numeral.whole_ne_nil
  rw [Numeral.text]
  cases numeral.negative with
  | true => exact ⟨0x2d, _, rfl, .inl rfl⟩
  | false =>
    refine ⟨d, digits ++ numeral.fractionText ++ numeral.scaleText, by simp [heq], .inr ?_⟩
    exact numeral.isDigit_whole d (by rw [heq]; exact mem_cons_self)

theorem shown_numeral (numeral : Numeral) : Shown numeral.text := by
  obtain ⟨b, tail, heq, hb⟩ := numeral.exists_head
  rw [heq]
  cases hb with
  | inl hminus => rw [hminus]; exact shown_cons (by decide) _
  | inr hdigit => exact shown_of_digit hdigit _

/-- No other value starts like a number. -/
theorem not_mem_of_numeral (hb : b = 0x2d ∨ isDigit b = true) :
    b ∉ [0x6e, 0x74, 0x66, 0x22, 0x5b, (0x7b : Byte)] := by
  intro hmem
  simp only [mem_cons, not_mem_nil, or_false] at hmem
  rcases hmem with rfl | rfl | rfl | rfl | rfl | rfl <;>
    exact hb.elim (fun h => absurd h (by decide)) fun h => absurd h (by decide)

theorem spells_numeral (numeral : Numeral) :
    Spells Reads numeral.text (.number numeral.value) := by
  refine ⟨shown_numeral _, fun rest hrest => ?_⟩
  obtain ⟨b, tail, heq, hb⟩ := numeral.exists_head
  have hread := readNumber_text numeral hrest
  rw [heq, cons_append] at hread ⊢
  exact (reads_number_iff (not_mem_of_numeral hb)).mpr ⟨_, rfl, hread⟩

theorem readDigits_eq_none (hb : isDigit b = false) (tail : Bytes) :
    readDigits (b :: tail) = none := by
  rw [readDigits, if_pos]
  exact takeWhile_cons_of_neg (by simp [hb])

theorem readMagnitude_eq_none (hb : isDigit b = false) (tail : Bytes) :
    readMagnitude (b :: tail) = none := by
  rw [readMagnitude, readDigits_eq_none hb]
  rfl

theorem readNumber_eq_none (hminus : b ≠ 0x2d) (hb : isDigit b = false) (tail : Bytes) :
    readNumber (b :: tail) = none := by
  rw [readNumber, if_neg (by exact fun h => hminus (Option.some.inj h)), readMagnitude_eq_none hb]

theorem spoils_of_readNumber (hshown : Shown (b :: tail))
    (hb : b ∉ [0x6e, 0x74, 0x66, 0x22, 0x5b, (0x7b : Byte)])
    (hnumber : ∀ rest, readNumber (b :: tail ++ rest) = none) : Spoils Reads (b :: tail) := by
  refine spoils_of_unreadable hshown fun rest value after _ hreads => ?_
  have hnone := hnumber rest
  rw [cons_append] at hreads hnone
  obtain ⟨number, -, hread⟩ := (reads_number_iff hb).mp hreads
  rw [hread] at hnone
  cases hnone

def SpellsChars (escaped : Bytes) (text : Text) : Prop :=
  ∀ rest, ReadsChars (escaped ++ 0x22 :: rest) text rest

theorem readsChars_cons {text : Bytes} {c : CodePoint}
    (hquote : text.head? ≠ some 0x22) (hchar : readChar text = some (c, tail))
    (h : ReadsChars tail chars rest) : ReadsChars text (c :: chars) rest := by
  obtain ⟨fuel, h⟩ := h
  refine ⟨fuel + 1, ?_⟩
  rw [readChars, if_neg hquote, hchar]
  simp [h]

theorem exists_of_readsChars {text : Bytes} (hquote : text.head? ≠ some 0x22)
    (h : ReadsChars text chars rest) :
    ∃ c tail more, chars = c :: more ∧ readChar text = some (c, tail) ∧
      ReadsChars tail more rest := by
  obtain ⟨fuel, h⟩ := h
  cases fuel with
  | zero => cases h
  | succ fuel =>
    rw [readChars, if_neg hquote] at h
    simp only [bind_eq_bind, bind_eq_some_iff] at h
    obtain ⟨⟨c, tail⟩, hchar, ⟨more, afterMore⟩, hmore, heq⟩ := h
    cases heq
    exact ⟨c, tail, more, rfl, hchar, fuel, hmore⟩

theorem spellsChars_flatMap {spell : CodePoint → Bytes} {text : Text}
    (h : ∀ c ∈ text, (spell c).head? ≠ some 0x22 ∧
      ∀ rest, readChar (spell c ++ rest) = some (c, rest)) :
    SpellsChars (text.flatMap spell) text := by
  intro rest
  induction text with
  | nil => exact ⟨1, rfl⟩
  | cons c text ih =>
    obtain ⟨hquote, hchar⟩ := h c mem_cons_self
    rw [flatMap_cons, append_assoc]
    refine readsChars_cons ?_ (hchar _) (ih fun d hd => h d (mem_cons_of_mem c hd))
    cases hspell : spell c with
    | nil =>
      have hempty := hchar []
      rw [hspell] at hempty
      cases hempty
    | cons b more => rwa [hspell] at hquote

structure Escaper (escape : Byte → Bytes) : Prop where
  kept_or_escaped : ∀ b, escape b = [b] ∧ b ≠ 0x22 ∧ b ≠ 0x5c ∨
    b.toNat < 128 ∧ (escape b).head? = some 0x5c ∧
      ∀ rest, readChar (escape b ++ rest) = some (Fin.ofNat 0x110000 b.toNat, rest)

theorem val_ofNat_byte (b : Byte) : (Fin.ofNat 0x110000 b.toNat : CodePoint).val = b.toNat := by
  have := b.toNat_lt
  rw [Fin.val_ofNat, Nat.mod_eq_of_lt (by omega)]

theorem encode_byte (h : b.toNat < 128) :
    isSurrogate (Fin.ofNat 0x110000 b.toNat) = false ∧ encode (Fin.ofNat 0x110000 b.toNat) = [b] := by
  have hval := val_ofNat_byte b
  have hascii : (Fin.ofNat 0x110000 b.toNat : CodePoint).val < 128 := by omega
  refine ⟨isSurrogate_ascii hascii, ?_⟩
  rw [encode_ascii hascii, hval, UInt8.ofNat_toNat]

theorem readChar_plain (hslash : b ≠ 0x5c) (hlow : 0x20 ≤ b) (tail : Bytes) :
    readChar (b :: tail) = decodeChar (b :: tail) := by
  rw [readChar, if_neg hslash, if_neg]
  rw [UInt8.lt_iff_toNat_lt]
  rw [UInt8.le_iff_toNat_le] at hlow
  omega

section Escaper

variable {escape : Byte → Bytes} (h : Escaper escape)

include h

theorem Escaper.flatMap_high {data : Bytes} (hhigh : ∀ b ∈ data, 128 ≤ b.toNat) :
    data.flatMap escape = data := by
  induction data with
  | nil => rfl
  | cons b data ih =>
    obtain ⟨hb, hmore⟩ := forall_mem_cons.mp hhigh
    rcases h.kept_or_escaped b with ⟨hkept, -⟩ | ⟨hlow, -⟩
    · rw [flatMap_cons, hkept, ih hmore]
      rfl
    · omega

theorem Escaper.readChar_flatMap {c : CodePoint} (hc : isSurrogate c = false)
    (hplain : ∀ b ∈ encode c, escape b = [b] → 0x20 ≤ b) :
    ((encode c).flatMap escape).head? ≠ some 0x22 ∧
      ∀ rest, readChar ((encode c).flatMap escape ++ rest) = some (c, rest) := by
  obtain ⟨b, tail, hencode⟩ := exists_cons_of_ne_nil (encode_ne_nil c)
  have hmem : b ∈ encode c := by
    rw [hencode]
    exact mem_cons_self
  have hkeep (hself : (encode c).flatMap escape = encode c) (hkept : escape b = [b])
      (hquote : b ≠ 0x22) (hslash : b ≠ 0x5c) :
      ((encode c).flatMap escape).head? ≠ some 0x22 ∧
        ∀ rest, readChar ((encode c).flatMap escape ++ rest) = some (c, rest) := by
    rw [hself]
    refine ⟨?_, fun rest => ?_⟩
    · rw [hencode]
      exact fun heq => hquote (Option.some.inj heq)
    · rw [hencode, cons_append, readChar_plain hslash (hplain b hmem hkept),
        ← cons_append, ← hencode, decodeChar_encode hc]
  by_cases hascii : c.val < 128
  · have hsingle := encode_ascii hascii
    rcases h.kept_or_escaped (UInt8.ofNat c.val) with ⟨hkept, hquote, hslash⟩ | ⟨-, hhead, hread⟩
    · have hb : b = UInt8.ofNat c.val := by
        rw [hsingle] at hencode
        exact (List.cons.inj hencode).1.symm
      refine hkeep ?_ (hb ▸ hkept) (hb ▸ hquote) (hb ▸ hslash)
      rw [hsingle, flatMap_singleton, hkept]
    · rw [hsingle, flatMap_singleton]
      refine ⟨by rw [hhead]; decide, fun rest => ?_⟩
      rw [hread, UInt8.toNat_ofNat', Nat.mod_eq_of_lt (by omega), Fin.ofNat_val_eq_self]
  · have hhigh := le_of_mem_encode hc (not_lt.mp hascii)
    rcases h.kept_or_escaped b with ⟨hkept, hquote, hslash⟩ | ⟨hlow, -⟩
    · exact hkeep (h.flatMap_high hhigh) hkept hquote hslash
    · have := hhigh b hmem
      omega

theorem Escaper.spellsChars {text : Text} (hencodable : text.Encodable)
    (hplain : ∀ b ∈ text.bytes, escape b = [b] → 0x20 ≤ b) :
    SpellsChars (text.bytes.flatMap escape) text := by
  have hchars : text.bytes.flatMap escape = text.flatMap fun c => (encode c).flatMap escape :=
    flatMap_assoc
  rw [hchars]
  exact spellsChars_flatMap fun c hc => h.readChar_flatMap (hencodable c hc) fun b hb =>
    hplain b (mem_flatMap.mpr ⟨c, hc, hb⟩)

/-- Bytes above ASCII are kept, so that they stand at the start of the data. -/
theorem Escaper.exists_of_append {high data : Bytes} (hhigh : ∀ b ∈ high, 128 ≤ b.toNat)
    (heq : data.flatMap escape ++ 0x22 :: rest = high ++ tail) :
    ∃ more, data = high ++ more ∧ tail = more.flatMap escape ++ 0x22 :: rest := by
  induction high generalizing data with
  | nil => exact ⟨data, rfl, heq.symm⟩
  | cons b high ih =>
    obtain ⟨hb, hmore⟩ := forall_mem_cons.mp hhigh
    cases data with
    | nil =>
      rw [← (List.cons.inj heq).1] at hb
      exact absurd hb (by decide)
    | cons d data =>
      rw [flatMap_cons, append_assoc] at heq
      rcases h.kept_or_escaped d with ⟨hkept, -⟩ | ⟨-, hhead, -⟩
      · rw [hkept] at heq
        obtain ⟨rfl, hrest⟩ := List.cons.inj heq
        obtain ⟨more, rfl, rfl⟩ := ih hmore hrest
        exact ⟨more, rfl, rfl⟩
      · obtain ⟨tail', hescape⟩ := head?_eq_some_iff.mp hhead
        rw [hescape] at heq
        rw [← (List.cons.inj heq).1] at hb
        exact absurd hb (by decide)

theorem Escaper.eq_of_readsChars {data : Bytes}
    (hreads : ReadsChars (data.flatMap escape ++ 0x22 :: rest) chars tail) :
    chars.Encodable ∧ chars.bytes = data ∧ tail = rest ∧ ∀ b ∈ data, escape b = [b] → 0x20 ≤ b := by
  generalize hlength : data.length = length
  induction length using Nat.strong_induction_on generalizing data chars with
  | _ length ih =>
    cases data with
    | nil =>
      obtain ⟨rfl, rfl⟩ := exact_readChars.deterministic ⟨1, rfl⟩ hreads
      exact ⟨forall_mem_nil _, rfl, rfl, forall_mem_nil _⟩
    | cons b data =>
      rw [length_cons] at hlength
      have hmore {more : Bytes} {others : Text} {c : CodePoint} (hc : isSurrogate c = false)
          (hdata : b :: data = encode c ++ more)
          (hplain : ∀ d ∈ encode c, escape d = [d] → 0x20 ≤ d)
          (hothers : ReadsChars (more.flatMap escape ++ 0x22 :: rest) others tail) :
          Text.Encodable (c :: others) ∧ Text.bytes (c :: others) = b :: data ∧ tail = rest ∧
            ∀ d ∈ b :: data, escape d = [d] → 0x20 ≤ d := by
        have hshort : more.length < length := by
          have hsum := congrArg List.length hdata
          have hpos := length_pos_of_ne_nil (encode_ne_nil c)
          rw [length_append, length_cons] at hsum
          omega
        obtain ⟨hencodable, rfl, htail, hrest⟩ := ih _ hshort hothers rfl
        refine ⟨forall_mem_cons.mpr ⟨hc, hencodable⟩, hdata.symm, htail, ?_⟩
        rw [hdata]
        exact forall_mem_append.mpr ⟨hplain, hrest⟩
      rw [flatMap_cons, append_assoc] at hreads
      rcases h.kept_or_escaped b with ⟨hkept, hquote, hslash⟩ | ⟨hlow, hhead, hread⟩
      · rw [hkept] at hreads
        obtain ⟨c, after, others, rfl, hchar, hothers⟩ := exists_of_readsChars
          (by exact fun heq => hquote (Option.some.inj heq)) hreads
        rw [singleton_append, readChar, if_neg hslash] at hchar
        split at hchar
        · cases hchar
        · next hlow =>
          have hlow : 0x20 ≤ b := UInt8.not_lt.mp hlow
          obtain ⟨hc, hbytes⟩ := decodeChar_eq_some_iff.mp hchar
          by_cases hascii : c.val < 128
          · rw [encode_ascii hascii] at hbytes
            obtain ⟨rfl, rfl⟩ := List.cons.inj hbytes
            refine hmore hc (by rw [encode_ascii hascii]; rfl) (fun d hd _ => ?_) hothers
            rw [encode_ascii hascii, mem_singleton] at hd
            rwa [hd]
          · have hhigh := le_of_mem_encode hc (not_lt.mp hascii)
            have hwhole : (b :: data).flatMap escape ++ 0x22 :: rest = encode c ++ after := by
              rw [flatMap_cons, hkept]
              exact hbytes
            obtain ⟨more, hdata, rfl⟩ := h.exists_of_append hhigh hwhole
            refine hmore hc hdata (fun d hd _ => ?_) hothers
            exact le_trans (by decide) (hhigh d hd)
      · obtain ⟨escaped, hescaped⟩ := head?_eq_some_iff.mp hhead
        obtain ⟨c, after, others, rfl, hchar, hothers⟩ := exists_of_readsChars
          (by rw [hescaped]; exact fun heq => absurd (Option.some.inj heq) (by decide)) hreads
        rw [hread] at hchar
        cases hchar
        obtain ⟨hc, hencode⟩ := encode_byte hlow
        refine hmore hc (by rw [hencode]; rfl) (fun d hd hself => ?_) hothers
        rw [hencode, mem_singleton] at hd
        rw [hd, hescaped] at hself
        rw [hd, ← (List.cons.inj hself).1]
        decide

end Escaper

/-- A string between its quotes. -/
def quoted (escaped : Bytes) : Bytes := ascii "\"" ++ escaped ++ ascii "\""

theorem quoted_append (escaped rest : Bytes) :
    quoted escaped ++ rest = 0x22 :: (escaped ++ 0x22 :: rest) := by
  rw [quoted, append_assoc, append_assoc]
  rfl

theorem shown_quoted (escaped : Bytes) : Shown (quoted escaped) := by
  have h := quoted_append escaped []
  rw [append_nil] at h
  exact shown_cons (by decide) _

theorem spells_string {text : Text} (h : SpellsChars escaped text) :
    Spells Reads (quoted escaped) (.string text) := by
  refine ⟨shown_quoted _, fun rest _ => ?_⟩
  rw [quoted_append]
  exact reads_string_iff.mpr ⟨text, rfl, h _⟩

theorem spoils_string (h : ∀ rest chars tail, ¬ ReadsChars (escaped ++ 0x22 :: rest) chars tail) :
    Spoils Reads (quoted escaped) := by
  refine spoils_of_unreadable (shown_quoted _) fun rest value tail _ hreads => ?_
  rw [quoted_append] at hreads
  obtain ⟨chars, -, hchars⟩ := reads_string_iff.mp hreads
  exact h _ _ _ hchars

/-- A name, a colon and the text of a value. -/
def memberText (escaped text : Bytes) : Bytes := quoted escaped ++ ascii ":" ++ text

theorem memberText_append (escaped text rest : Bytes) :
    memberText escaped text ++ rest = 0x22 :: (escaped ++ 0x22 :: (0x3a :: (text ++ rest))) := by
  rw [memberText, append_assoc, append_assoc, quoted_append]
  rfl

theorem shown_memberText (escaped text : Bytes) : Shown (memberText escaped text) := by
  rw [memberText, append_assoc]
  exact (shown_quoted _).append _

theorem spells_member {α : Type} {reads : Bytes → α → Bytes → Prop} {text : Bytes} {value : α}
    (hname : SpellsChars escaped name) (hvalue : Spells reads text value) :
    Spells (Member reads) (memberText escaped text) (name, value) := by
  refine ⟨shown_memberText _ _, fun rest hrest => ?_⟩
  rw [memberText_append]
  refine .mk (hname _) rfl ?_
  rw [(hvalue.shown.append _).skipSpace]
  exact hvalue.reads _ hrest

theorem reads_of_member {text : Bytes} {entry : Text × Json}
    (hname : SpellsChars escaped name) (hshown : Shown text)
    (h : Member Reads (memberText escaped text ++ rest) entry tail) :
    entry.1 = name ∧ Reads (text ++ rest) entry.2 tail := by
  rw [memberText_append] at h
  cases h with
  | mk hchars hcolon hreads =>
    obtain ⟨rfl, rfl⟩ := exact_readChars.deterministic (hname _) hchars
    obtain ⟨-, rfl⟩ := List.cons.inj hcolon
    rw [(hshown.append _).skipSpace] at hreads
    exact ⟨rfl, hreads⟩

theorem spoils_member {text : Bytes} (hname : SpellsChars escaped name)
    (hvalue : Spoils Reads text) : Spoils (Member Reads) (memberText escaped text) := by
  refine ⟨shown_memberText _ _, fun rest hrest entry tail hmember => ?_⟩
  exact hvalue.blocked _ hrest _ _ (reads_of_member hname hvalue.shown hmember).2

def bracketed (first last : Byte) (texts : List Bytes) : Bytes :=
  [first] ++ (ascii ",").intercalate texts ++ [last]

theorem bracketed_append (first last : Byte) (texts : List Bytes) (rest : Bytes) :
    bracketed first last texts ++ rest =
      first :: ((ascii ",").intercalate texts ++ last :: rest) := by
  rw [bracketed, append_assoc, append_assoc]
  rfl

theorem shown_bracketed {first : Byte} (hfirst : first ∈ [0x5b, (0x7b : Byte)]) (last : Byte)
    (texts : List Bytes) : Shown (bracketed first last texts) := by
  apply shown_cons
  simp only [mem_cons, not_mem_nil, or_false] at hfirst
  rcases hfirst with rfl | rfl <;> decide

theorem spells_array {items : List Json}
    (h : List.Forall₂ (Spells Reads) texts items) :
    Spells Reads (bracketed 0x5b 0x5d texts) (.array items) := by
  refine ⟨shown_bracketed (by decide) _ _, fun rest _ => ?_⟩
  rw [bracketed_append]
  exact reads_array_iff.mpr ⟨items, rfl, spells_items (by decide) (by decide) h _⟩

theorem spells_object {members : List (Text × Json)}
    (h : List.Forall₂ (Spells (Member Reads)) texts members) :
    Spells Reads (bracketed 0x7b 0x7d texts) (.object members) := by
  refine ⟨shown_bracketed (by decide) _ _, fun rest _ => ?_⟩
  rw [bracketed_append]
  exact reads_object_iff.mpr ⟨members, rfl, spells_items (by decide) (by decide) h _⟩

theorem spoils_array
    (hspells : ∀ text ∈ texts, (∃ item, Spells Reads text item) ∨ Spoils Reads text)
    (hspoils : ∃ text ∈ texts, Spoils Reads text) :
    Spoils Reads (bracketed 0x5b 0x5d texts) := by
  refine spoils_of_unreadable (shown_bracketed (by decide) _ _) fun rest value tail _ hreads => ?_
  rw [bracketed_append] at hreads
  obtain ⟨items, -, hitems⟩ := reads_array_iff.mp hreads
  exact spoils_items deterministic_reads (by decide) hspells hspoils _ hitems

theorem spoils_object (hspells : ∀ text ∈ texts, (∃ entry, Spells (Member Reads) text entry) ∨
      Spoils (Member Reads) text)
    (hspoils : ∃ text ∈ texts, Spoils (Member Reads) text) :
    Spoils Reads (bracketed 0x7b 0x7d texts) := by
  refine spoils_of_unreadable (shown_bracketed (by decide) _ _) fun rest value tail _ hreads => ?_
  rw [bracketed_append] at hreads
  obtain ⟨members, -, hmembers⟩ := reads_object_iff.mp hreads
  exact spoils_items (Exact.deterministic (Member.exact exact_readValue)) (by decide) hspells hspoils _
    hmembers

theorem spoils_object_last {members : List (Text × Json)} {text : Bytes}
    (h : List.Forall₂ (Spells (Member Reads)) texts members) (hlast : Spoils (Member Reads) text) :
    Spoils Reads (bracketed 0x7b 0x7d (texts ++ [text])) := by
  refine spoils_object (fun one hmem => ?_) ⟨text, mem_append_right _ (.head _), hlast⟩
  rcases mem_append.mp hmem with hmem | hmem
  · obtain ⟨i, hi, rfl⟩ := mem_iff_getElem.mp hmem
    obtain ⟨hlength, hspells⟩ := forall₂_iff_get.mp h
    exact .inl ⟨_, hspells i hi (hlength ▸ hi)⟩
  · rw [mem_singleton] at hmem
    rw [hmem]
    exact .inr hlast

/-! ## How long a string is -/

theorem length_of_readUnit {text : Bytes} {unit : ℕ} (h : readUnit text = some (unit, rest)) :
    text.length = rest.length + 4 := by
  rw [readUnit.eq_def] at h
  split at h
  · simp only [bind_eq_bind, bind_eq_some_iff] at h
    obtain ⟨_, _, _, _, _, _, _, _, heq⟩ := h
    cases heq
    rfl
  · cases h

theorem length_encode_le (c : CodePoint) : (encode c).length ≤ 4 := by
  rw [encode, String.length_utf8EncodeChar]
  exact Char.utf8Size_le_four _

theorem length_encode_of_simpleEscape {c : CodePoint} (h : simpleEscape b = some c) :
    (encode c).length = 1 := by
  have hone {d : CodePoint} (hd : d.val < 128) : (encode d).length = 1 := by
    rw [encode_ascii hd]
    rfl
  rw [simpleEscape] at h
  split_ifs at h with hself hb hf hn hr ht <;> cases h
  · rcases hself with rfl | rfl | rfl <;> exact hone (by decide)
  · exact hone (by decide)
  · exact hone (by decide)
  · exact hone (by decide)
  · exact hone (by decide)
  · exact hone (by decide)

/-- An escape sequence is longer than its character; what is no escape sequence is the
character itself. -/
theorem length_of_readChar {text : Bytes} {c : CodePoint} (h : readChar text = some (c, rest)) :
    (text = encode c ++ rest ∧ isSurrogate c = false ∧ text.head? ≠ some 0x5c ∧
        ∀ b ∈ text.head?, 0x20 ≤ b) ∨
      (encode c).length + rest.length < text.length := by
  cases text with
  | nil => cases h
  | cons b text =>
    rw [readChar] at h
    split at h
    · cases text with
      | nil => cases h
      | cons e text =>
        rw [readEscape] at h
        split at h
        · simp only [readUnicode, bind_eq_bind, bind_eq_some_iff] at h
          obtain ⟨⟨unit, after⟩, hunit, h⟩ := h
          have hlength := length_of_readUnit hunit
          have hc := length_encode_le c
          have hrest : rest.length ≤ after.length := by
            split at h
            · split at h
              · next low afterLow hlow =>
                rw [← (Prod.mk.inj (Option.some.inj h)).2]
                exact (takes_readLowSurrogate hlow).2.le
              · rw [← (Prod.mk.inj (Option.some.inj h)).2]
            · rw [← (Prod.mk.inj (Option.some.inj h)).2]
          simp only [length_cons]
          omega
        · obtain ⟨d, hescape, heq⟩ := map_eq_some_iff.mp h
          cases heq
          rw [length_encode_of_simpleEscape hescape]
          simp only [length_cons]
          omega
    · next hslash =>
      split at h
      · cases h
      · next hlow =>
        obtain ⟨hc, heq⟩ := decodeChar_eq_some_iff.mp h
        refine .inl ⟨heq, hc, fun hhead => hslash (Option.some.inj hhead), fun d hd => ?_⟩
        rw [← Option.some.inj hd]
        exact UInt8.not_lt.mp hlow

/-- A string is as long as its text only where nothing in it is escaped. -/
theorem length_of_readsChars {text : Bytes} (h : ReadsChars text chars rest) :
    (text = chars.bytes ++ 0x22 :: rest ∧ chars.Encodable ∧
        ∀ c ∈ chars, 0x20 ≤ c.val ∧ c.val ≠ 0x22 ∧ c.val ≠ 0x5c) ∨
      chars.bytes.length + rest.length + 1 < text.length := by
  induction chars generalizing text with
  | nil =>
    by_cases hquote : text.head? = some 0x22
    · obtain ⟨tail, rfl⟩ := head?_eq_some_iff.mp hquote
      obtain ⟨-, rfl⟩ := exact_readChars.deterministic ⟨1, rfl⟩ h
      exact .inl ⟨rfl, forall_mem_nil _, forall_mem_nil _⟩
    · obtain ⟨c, tail, more, heq, -⟩ := exists_of_readsChars hquote h
      cases heq
  | cons c chars ih =>
    have hquote : text.head? ≠ some 0x22 := by
      intro hquote
      obtain ⟨tail, rfl⟩ := head?_eq_some_iff.mp hquote
      obtain ⟨heq, -⟩ := exact_readChars.deterministic ⟨1, rfl⟩ h
      cases heq
    obtain ⟨d, tail, more, heq, hchar, hmore⟩ := exists_of_readsChars hquote h
    cases heq
    rw [Text.bytes_cons, length_append]
    rcases length_of_readChar hchar with ⟨rfl, hc, hslash, hlow⟩ | hshort
    · rcases ih hmore with ⟨rfl, hencodable, hplain⟩ | hshort
      · refine .inl ⟨(append_assoc _ _ _).symm, forall_mem_cons.mpr ⟨hc, hencodable⟩,
          forall_mem_cons.mpr ⟨?_, hplain⟩⟩
        by_cases hascii : c.val < 128
        · rw [encode_ascii hascii] at hquote hslash hlow
          have hnat : (UInt8.ofNat c.val).toNat = c.val := by
            rw [UInt8.toNat_ofNat']
            omega
          have hle := UInt8.le_iff_toNat_le.mp (hlow _ rfl)
          rw [hnat] at hle
          refine ⟨hle, fun heq => hquote ?_, fun heq => hslash ?_⟩
          · rw [heq]; rfl
          · rw [heq]; rfl
        · omega
      · rw [length_append]
        omega
    · rcases ih hmore with ⟨rfl, -, -⟩ | hmoreShort
      · rw [length_append, length_cons] at hshort
        omega
      · omega

theorem length_of_reads_string {text : Bytes}
    (h : Reads text (.string chars) rest) : chars.bytes.length + rest.length + 2 ≤ text.length := by
  obtain ⟨tail, rfl⟩ := head_of_reads_string h
  obtain ⟨found, heq, hchars⟩ := reads_string_iff.mp h
  cases heq
  rw [length_cons]
  rcases length_of_readsChars hchars with ⟨rfl, -, -⟩ | hshort
  · rw [length_append, length_cons]
    omega
  · omega

theorem length_of_sequence_string {close : Byte} {text : Bytes} {members : List (Text × Json)}
    (h : Sequence (Member Reads) close text members rest)
    (hmem : (name, .string chars) ∈ members) : chars.bytes.length + 5 < text.length := by
  have hmember {text tail : Bytes} (h : Member Reads text (name, .string chars) tail) :
      chars.bytes.length + tail.length + 5 ≤ text.length := by
    cases h with
    | @mk text after next _ _ _ hname hcolon hvalue =>
      have hlength := length_of_reads_string hvalue
      have hskipNext := length_skipSpace_le next
      have hskipAfter := length_skipSpace_le after
      have hchars := (exact_readChars hname).1.2
      rw [hcolon, length_cons] at hskipAfter
      rw [length_cons]
      omega
  induction h with
  | @last text tail rest item hitem hclose =>
    rw [mem_singleton] at hmem
    subst hmem
    have hskip := length_skipSpace_le tail
    rw [hclose, length_cons] at hskip
    have := hmember hitem
    omega
  | @more text tail next rest item items hitem hcomma hitems ih =>
    have hskip := length_skipSpace_le tail
    rw [hcomma, length_cons] at hskip
    cases mem_cons.mp hmem with
    | inl heq =>
      subst heq
      have := hmember hitem
      omega
    | inr hmem =>
      have hshort := ((Member.exact exact_readValue) hitem).1.2
      have hnext := length_skipSpace_le next
      have := ih hmem
      omega

end AstraApi.Json
