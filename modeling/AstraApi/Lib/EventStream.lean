import AstraApi.Lib.Message
import AstraApi.Lib.Text
import AstraApi.Lib.Words

/-!
# Event streams

How a client reads an event stream: lines end at CR, LF or CRLF, a field has a name and a value,
and an empty line dispatches what has been collected.
-/

namespace AstraApi.EventStream

open List Option

variable {text line : Text} {s : State}

def lf : CodePoint := 10
def cr : CodePoint := 13
def colon : CodePoint := 58
def space : CodePoint := 32
def byteOrderMark : CodePoint := 0xFEFF

/-! ## Lines -/

/-- `afterCr` tells that the character before was a CR. -/
def normalizeFrom (afterCr : Bool) : Text → Text
  | [] => []
  | c :: text =>
    if c = lf then
      if afterCr then normalizeFrom false text else lf :: normalizeFrom false text
    else if c = cr then lf :: normalizeFrom true text
    else c :: normalizeFrom false text

/-- Every line break as LF. -/
def normalize (text : Text) : Text := normalizeFrom false text

def completeLines (text : Text) : List Text := ((normalize text).splitOn lf).dropLast

/-! ## Fields -/

structure State where
  data : Text := []
  type : Text := []
  lastEventId : Text := []

/-- What a client notices: a message, or a time for reconnections. -/
inductive Signal where
  | message (type data lastEventId : Text)
  | reconnection (time : ℕ)
  deriving DecidableEq

def withoutLastLf (data : Text) : Text := if data.getLast? = some lf then data.dropLast else data

def dispatch (s : State) : State × List Signal :=
  if s.data = [] then ({ s with type := [] }, [])
  else
    ({ s with data := [], type := [] },
      [.message (if s.type = [] then plainText "message" else s.type) (withoutLastLf s.data)
        s.lastEventId])

def setField (s : State) (field value : Text) : State × List Signal :=
  if field = plainText "event" then ({ s with type := value }, [])
  else if field = plainText "data" then ({ s with data := s.data ++ value ++ [lf] }, [])
  else if field = plainText "id" then
    if 0 ∈ value then (s, []) else ({ s with lastEventId := value }, [])
  else if field = plainText "retry" then
    (s, ((value.latin1.bind Message.readDecimal).map Signal.reconnection).toList)
  else (s, [])

def fieldValue (rest : Text) : Text := if rest.head? = some space then rest.tail else rest

def processLine (s : State) (line : Text) : State × List Signal :=
  if line = [] then dispatch s
  else if line.head? = some colon then (s, [])
  else if colon ∈ line then
    setField s (line.takeWhile (· ≠ colon)) (fieldValue (line.dropWhile (· ≠ colon)).tail)
  else setField s line []

def run (s : State) : List Text → State × List Signal
  | [] => (s, [])
  | line :: lines =>
    let step := processLine s line
    ((run step.1 lines).1, step.2 ++ (run step.1 lines).2)

/-- What is pending at the end is not dispatched. -/
def read (text : Text) : List Signal :=
  (run {} (completeLines (if text.head? = some byteOrderMark then text.tail else text))).2

/-! ## Normalised text -/

/-- The last character was a CR. -/
def endsCr (afterCr : Bool) : Text → Bool
  | [] => afterCr
  | c :: text => endsCr (c = cr) text

theorem endsCr_concat (afterCr : Bool) (text : Text) (c : CodePoint) :
    endsCr afterCr (text ++ [c]) = decide (c = cr) := by
  induction text generalizing afterCr with
  | nil => rfl
  | cons d text ih => exact ih _

@[simp]
theorem normalizeFrom_nil (afterCr : Bool) : normalizeFrom afterCr [] = [] := rfl

theorem normalizeFrom_append (afterCr : Bool) (left right : Text) :
    normalizeFrom afterCr (left ++ right) =
      normalizeFrom afterCr left ++ normalizeFrom (endsCr afterCr left) right := by
  induction left generalizing afterCr with
  | nil => rfl
  | cons c left ih =>
    rw [cons_append, normalizeFrom, normalizeFrom, endsCr]
    by_cases hlf : c = lf
    · have hcr : decide (c = cr) = false := by
        rw [hlf]
        decide
      rw [if_pos hlf, if_pos hlf, hcr, ih]
      split <;> rfl
    · by_cases hcr : c = cr
      · rw [if_neg hlf, if_neg hlf, if_pos hcr, if_pos hcr, ih, decide_eq_true hcr]
        rfl
      · rw [if_neg hlf, if_neg hlf, if_neg hcr, if_neg hcr, ih, decide_eq_false hcr]
        rfl

theorem normalize_append_of_notMem (hcr : cr ∉ text) (rest : Text) :
    normalize (text ++ rest) = text ++ normalize rest := by
  induction text with
  | nil => rfl
  | cons c text ih =>
    have hc : ¬ c = cr := fun heq => hcr (heq ▸ mem_cons_self)
    have hrest := ih fun hmem => hcr (mem_cons_of_mem c hmem)
    rw [normalize] at hrest ⊢
    rw [cons_append, normalizeFrom, hrest, if_neg hc]
    split
    · rename_i hlf
      rw [hlf]
      rfl
    · rfl

theorem normalize_of_notMem (hcr : cr ∉ text) : normalize text = text := by
  simpa [normalize] using normalize_append_of_notMem hcr []

theorem cr_notMem_normalizeFrom (afterCr : Bool) (text : Text) :
    cr ∉ normalizeFrom afterCr text := by
  induction text generalizing afterCr with
  | nil => simp
  | cons c text ih =>
    have hlf : cr ≠ lf := by decide
    rw [normalizeFrom]
    split
    · split
      · exact ih _
      · simp [hlf, ih]
    · split
      · simp [hlf, ih]
      · rename_i hne
        simp [ih, Ne.symm hne]

theorem lf_mem_normalizeFrom (hcr : cr ∈ text) (afterCr : Bool) :
    lf ∈ normalizeFrom afterCr text := by
  induction text generalizing afterCr with
  | nil => cases hcr
  | cons c text ih =>
    rw [normalizeFrom]
    rcases mem_cons.mp hcr with rfl | hmem
    · exact mem_cons_self
    · split_ifs
      · exact ih hmem _
      · exact mem_cons_self
      · exact mem_cons_self
      · exact mem_cons_of_mem c (ih hmem _)

def withoutLastCr (line : Text) : Text := if line.getLast? = some cr then line.dropLast else line

theorem withoutLastCr_concat (front : Text) (c : CodePoint) :
    withoutLastCr (front ++ [c]) = if c = cr then front else front ++ [c] := by
  simp [withoutLastCr]

theorem withoutLastCr_cons_cons (c d : CodePoint) (line : Text) :
    withoutLastCr (c :: d :: line) = c :: withoutLastCr (d :: line) := by
  rw [withoutLastCr, withoutLastCr, getLast?_cons_cons, dropLast_cons_cons]
  split <;> rfl

theorem withoutLastCr_isPrefix (line : Text) : withoutLastCr line <+: line := by
  unfold withoutLastCr
  split
  · exact dropLast_prefix _
  · exact prefix_rfl

/-- A CR at the end is a line break of its own when LF does not follow. -/
theorem length_normalize_last (line : Text) :
    withoutLastCr line = line ∨
      (normalize line).length = (normalize (withoutLastCr line)).length + 1 ∧ cr ∈ line := by
  rcases eq_nil_or_concat line with rfl | ⟨front, c, rfl⟩
  · exact Or.inl rfl
  · rw [concat_eq_append, withoutLastCr_concat]
    split
    · rename_i hc
      refine Or.inr ⟨?_, by simp [hc]⟩
      have hcr : ¬ cr = lf := by decide
      rw [hc, normalize, normalizeFrom_append, length_append, normalizeFrom, if_neg hcr, if_pos rfl]
      rfl
    · exact Or.inl rfl

theorem normalize_line (line rest : Text) :
    normalize (line ++ lf :: rest) = normalize (withoutLastCr line) ++ lf :: normalize rest := by
  have hcr : ¬ cr = lf := by decide
  rcases eq_nil_or_concat line with rfl | ⟨front, c, rfl⟩
  · rfl
  · rw [concat_eq_append, withoutLastCr_concat]
    by_cases hc : c = cr
    · rw [if_pos hc, hc, append_assoc, normalize, normalizeFrom_append]
      simp [normalize, normalizeFrom, hcr]
    · rw [if_neg hc, normalize, normalizeFrom_append, endsCr_concat]
      simp [normalize, normalizeFrom, hc]

def linesOf (line : Text) : List Text := (normalize (withoutLastCr line)).splitOn lf

theorem completeLines_line (line rest : Text) :
    completeLines (line ++ lf :: rest) = linesOf line ++ completeLines rest := by
  rw [completeLines, normalize_line, splitOn_append_cons_self,
    dropLast_append_of_ne_nil (splitOn_ne_nil _ _)]
  rfl

def LineFree (text : Text) : Prop := cr ∉ text ∧ lf ∉ text

instance (text : Text) : Decidable (LineFree text) := inferInstanceAs (Decidable (_ ∧ _))

/-- A text is one line, or a line and a text behind LF. -/
theorem line_induction {P : Text → Prop} (last : ∀ line, lf ∉ line → P line)
    (line : ∀ line rest, lf ∉ line → P rest → P (line ++ lf :: rest)) (text : Text) : P text := by
  induction hlength : text.length using Nat.strong_induction_on generalizing text with
  | _ n ih =>
    subst hlength
    by_cases hlf : lf ∈ text
    · obtain ⟨front, back, rfl, hfront⟩ := eq_append_cons_of_mem hlf
      have hshorter : back.length < (front ++ lf :: back).length := by
        rw [length_append, length_cons]
        omega
      exact line _ _ hfront (ih _ hshorter _ rfl)
    · exact last _ hlf

theorem withoutLastCr_of_notMem (hcr : cr ∉ text) : withoutLastCr text = text :=
  if_neg fun h => hcr (mem_of_getLast? h)

theorem linesOf_of_lineFree (h : LineFree line) : linesOf line = [line] := by
  rw [linesOf, withoutLastCr_of_notMem h.1, normalize_of_notMem h.1, splitOn_eq_singleton h.2]

theorem splitOn_append_of_notMem {front : Text} (hlf : lf ∉ front) (text : Text) :
    (front ++ text).splitOn lf = (text.splitOn lf).modifyHead (front ++ ·) := by
  induction front with
  | nil => cases h : text.splitOn lf <;> simp [h]
  | cons c front ih =>
    have hc : (c == lf) = false := by
      rw [beq_eq_false_iff_ne]
      rintro rfl
      exact hlf mem_cons_self
    rw [cons_append, splitOn_cons_eq_if_modifyHead, hc, ih fun hmem => hlf (mem_cons_of_mem c hmem)]
    cases h : text.splitOn lf <;> simp

theorem linesOf_ne_nil (line : Text) : linesOf line ≠ [] := splitOn_ne_nil _ _

/-- What stands before a line stands before its first part. -/
theorem linesOf_append {front : Text} (hfront : LineFree front) :
    linesOf (front ++ line) = (linesOf line).modifyHead (front ++ ·) := by
  have hwithout : withoutLastCr (front ++ line) = front ++ withoutLastCr line := by
    rcases eq_nil_or_concat line with rfl | ⟨line, c, rfl⟩
    · rw [append_nil, withoutLastCr_of_notMem hfront.1]
      exact (append_nil _).symm
    · rw [concat_eq_append, ← append_assoc, withoutLastCr_concat, withoutLastCr_concat]
      split
      · rfl
      · rw [append_assoc]
  rw [linesOf, hwithout, normalize_append_of_notMem hfront.1, splitOn_append_of_notMem hfront.2]
  rfl

/-- A line without LF is cut at each CR that is not its last character. -/
theorem linesOf_eq_singleton_iff (hlf : lf ∉ line) {first : Text}
    {others : List Text} (h : linesOf line = first :: others) :
    others = [] ↔ cr ∉ withoutLastCr line := by
  constructor
  · rintro rfl hcr
    have hjoined : [lf].intercalate (linesOf line) = normalize (withoutLastCr line) :=
      intercalate_splitOn _
    have hfirst : lf ∉ first :=
      (Words.of_mem_splitOn (show first ∈ linesOf line from h ▸ mem_cons_self)).1
    rw [h, intercalate_singleton] at hjoined
    exact hfirst (hjoined ▸ lf_mem_normalizeFrom hcr _)
  · intro hcr
    have hfree : lf ∉ withoutLastCr line := fun hmem => hlf ((withoutLastCr_isPrefix _).subset hmem)
    rw [linesOf, normalize_of_notMem hcr, splitOn_eq_singleton hfree] at h
    exact (List.cons.inj h).2.symm

theorem length_intercalate (line : Text) (lines : List Text) :
    ([lf].intercalate (line :: lines)).length =
      line.length + lines.flatten.length + lines.length := by
  induction lines generalizing line with
  | nil => simp
  | cons next lines ih =>
    rw [intercalate_cons_cons, length_append, length_append, ih, flatten_cons, length_append]
    simp only [length_cons, length_nil]
    omega

/-! ## Fields of a line -/

theorem processLine_field (s : State) {field : Text} (hne : field ≠ []) (hcolon : colon ∉ field)
    (value : Text) : processLine s (field ++ colon :: space :: value) = setField s field value := by
  have hfield : ∀ c ∈ field, decide (c ≠ colon) = true := by
    intro c hc
    simp only [ne_eq, decide_eq_true_eq]
    rintro rfl
    exact hcolon hc
  have hhead : (field ++ colon :: space :: value).head? ≠ some colon := by
    obtain ⟨c, rest, rfl⟩ := exists_cons_of_ne_nil hne
    intro h
    exact hcolon (some_inj.mp h ▸ mem_cons_self)
  rw [processLine, if_neg (by simp), if_neg hhead, if_pos (by simp),
    takeWhile_append_of_pos hfield, dropWhile_append_of_pos hfield,
    takeWhile_cons_of_neg (by simp), dropWhile_cons_of_neg (by simp), append_nil]
  rfl

theorem processLine_nil (s : State) : processLine s [] = dispatch s := if_pos rfl

theorem run_append (s : State) (front back : List Text) :
    run s (front ++ back) = ((run (run s front).1 back).1,
      (run s front).2 ++ (run (run s front).1 back).2) := by
  induction front generalizing s with
  | nil => rfl
  | cons line front ih => rw [cons_append, run, ih, run, append_assoc]

/-! ## What cannot be in a signal -/

theorem lineFree_of_mem_completeLines (h : line ∈ completeLines text) :
    LineFree line := by
  obtain ⟨hlf, hmem⟩ := Words.of_mem_splitOn (dropLast_subset _ h)
  exact ⟨fun hcr => cr_notMem_normalizeFrom _ _ (hmem _ hcr), hlf⟩

/-- What has been collected has no line breaks, and the id has no NUL. -/
structure State.Collected (s : State) : Prop where
  type : LineFree s.type
  lastEventId : LineFree s.lastEventId ∧ 0 ∉ s.lastEventId

structure Expressible (type lastEventId : Text) : Prop where
  nonempty : type ≠ []
  type : LineFree type
  lastEventId : LineFree lastEventId ∧ 0 ∉ lastEventId

theorem setField_collected (h : s.Collected) {field value : Text}
    (hvalue : LineFree value) : (setField s field value).1.Collected ∧
      ∀ type data id, Signal.message type data id ∉ (setField s field value).2 := by
  unfold setField
  split_ifs with hevent hdata hid hnul hretry
  · exact ⟨⟨hvalue, h.lastEventId⟩, by simp⟩
  · exact ⟨⟨h.type, h.lastEventId⟩, by simp⟩
  · exact ⟨h, by simp⟩
  · exact ⟨⟨h.type, hvalue, hnul⟩, by simp⟩
  · refine ⟨h, fun type data id hmem => ?_⟩
    obtain ⟨time, -, heq⟩ := map_eq_some_iff.mp (mem_toList.mp hmem)
    cases heq
  · exact ⟨h, by simp⟩

theorem dispatch_collected (h : s.Collected) : (dispatch s).1.Collected ∧
    ∀ type data id, .message type data id ∈ (dispatch s).2 → Expressible type id := by
  have hempty : LineFree [] := ⟨not_mem_nil, not_mem_nil⟩
  unfold dispatch
  split
  · exact ⟨⟨hempty, h.lastEventId⟩, by simp⟩
  · refine ⟨⟨hempty, h.lastEventId⟩, fun type data id hmem => ?_⟩
    obtain ⟨rfl, -, rfl⟩ := Signal.message.inj (mem_singleton.mp hmem)
    split
    · exact ⟨by decide, by decide, h.lastEventId⟩
    · rename_i htype
      exact ⟨htype, h.type, h.lastEventId⟩

theorem fieldValue_suffix (rest : Text) : fieldValue rest <:+ rest := by
  unfold fieldValue
  split
  · exact tail_suffix _
  · exact suffix_rfl

theorem LineFree.of_subset {part : Text} (h : LineFree text) (hsubset : part ⊆ text) :
    LineFree part :=
  ⟨fun hmem => h.1 (hsubset hmem), fun hmem => h.2 (hsubset hmem)⟩

theorem processLine_collected (h : s.Collected) (hline : LineFree line) :
    (processLine s line).1.Collected ∧
      ∀ type data id, .message type data id ∈ (processLine s line).2 → Expressible type id := by
  have hset {field value : Text} (hvalue : LineFree _) :
      (setField s field value).1.Collected ∧ ∀ type data id,
        .message type data id ∈ (setField s field value).2 → Expressible type id :=
    ⟨(setField_collected h hvalue).1, fun type data id hmem =>
      absurd hmem ((setField_collected h hvalue).2 type data id)⟩
  unfold processLine
  split_ifs with hempty hcomment hcolon
  · exact dispatch_collected h
  · exact ⟨h, by simp⟩
  · apply hset
    have hsuffix := ((fieldValue_suffix (line.dropWhile (· ≠ colon)).tail).trans
      (tail_suffix _)).trans (dropWhile_suffix _)
    exact hline.of_subset hsuffix.subset
  · exact hset ⟨not_mem_nil, not_mem_nil⟩

theorem run_expressible (h : s.Collected) {lines : List Text}
    (hlines : ∀ line ∈ lines, LineFree line) {type data id : Text}
    (hmem : .message type data id ∈ (run s lines).2) : Expressible type id := by
  induction lines generalizing s with
  | nil => cases hmem
  | cons line lines ih =>
    obtain ⟨hnext, hmessages⟩ := processLine_collected h (hlines _ mem_cons_self)
    rcases mem_append.mp hmem with hmem | hmem
    · exact hmessages _ _ _ hmem
    · exact ih hnext (fun other hother => hlines _ (mem_cons_of_mem _ hother)) hmem

/-! ## The length of the data -/

def Signal.data : Signal → Option Text
  | .message _ data _ => some data
  | .reconnection _ => none

/-- The data of the first message have fewer than `n` characters. -/
def Short (n : ℕ) (lines : List Text) (s : State) : Prop :=
  ∃ data, (run s lines).2.findSome? Signal.data = some data ∧ data.length < n

theorem setField_length (s : State) (field value : Text) :
    (∃ more, (setField s field value).1.data = s.data ++ more ∧
      (more = [] ∨ more = value ++ [lf] ∧ field = plainText "data")) ∧
      (setField s field value).2.findSome? Signal.data = none := by
  unfold setField
  split_ifs with hevent hdata hid hnul hretry
  · exact ⟨⟨[], by simp⟩, rfl⟩
  · exact ⟨⟨value ++ [lf], by simp [hdata]⟩, rfl⟩
  · exact ⟨⟨[], by simp⟩, rfl⟩
  · exact ⟨⟨[], by simp⟩, rfl⟩
  · refine ⟨⟨[], by simp⟩, ?_⟩
    cases value.latin1.bind Message.readDecimal <;> rfl
  · exact ⟨⟨[], by simp⟩, rfl⟩

theorem processLine_length (s : State) (hline : line ≠ []) :
    (∃ more, (processLine s line).1.data = s.data ++ more ∧ more.length ≤ line.length ∧
      (more = [] ∨ more.getLast? = some lf)) ∧
      (processLine s line).2.findSome? Signal.data = none := by
  rw [processLine, if_neg hline]
  split_ifs with hcomment hcolon
  · exact ⟨⟨[], by simp⟩, rfl⟩
  · obtain ⟨⟨more, hmore, hor⟩, hnone⟩ := setField_length s _
      _
    refine ⟨⟨more, hmore, ?_, hor.imp_right fun h => ?_⟩, hnone⟩
    · rcases hor with rfl | ⟨rfl, -⟩
      · exact Nat.zero_le _
      · have hvalue := (fieldValue_suffix (line.dropWhile (· ≠ colon)).tail).length_le
        have hrest := (dropWhile_suffix (l := line) (· ≠ colon)).length_le
        have hne : 0 < (line.dropWhile (· ≠ colon)).length := by
          rw [length_pos_iff, Ne, dropWhile_eq_nil_iff]
          exact fun hall => by simpa using hall _ hcolon
        rw [length_tail] at hvalue
        rw [length_append, length_singleton]
        omega
    · rw [h.1, getLast?_concat]
  · obtain ⟨⟨more, hmore, hor⟩, hnone⟩ := setField_length s _ []
    refine ⟨⟨more, hmore, ?_, hor.imp_right fun h => ?_⟩, hnone⟩
    · rcases hor with rfl | ⟨rfl, -⟩
      · exact Nat.zero_le _
      · exact length_pos_iff.mpr hline
    · rw [h.1, getLast?_concat]

theorem short_blank {n : ℕ} (hlast : s.data.getLast? = some lf) (h : s.data.length ≤ n)
    (lines : List Text) : Short n ([] :: lines) s := by
  have hne : s.data ≠ [] := by
    intro hempty
    simp [hempty] at hlast
  refine ⟨withoutLastLf s.data, ?_, ?_⟩
  · rw [run, processLine_nil, dispatch, if_neg hne]
    rfl
  · have hpos := length_pos_iff.mpr hne
    rw [withoutLastLf, if_pos hlast, length_dropLast]
    omega

theorem short_cons {n : ℕ} {lines : List Text}
    (hnone : (processLine s line).2.findSome? Signal.data = none)
    (h : Short n lines (processLine s line).1) : Short n (line :: lines) s := by
  obtain ⟨data, hdata, hlength⟩ := h
  refine ⟨data, ?_, hlength⟩
  rw [run, findSome?_append, hnone, none_or, hdata]

/-- Lines that are added as they are do not make the data longer than their characters. -/
theorem short_lines {n k : ℕ} (hk : k ≤ n) {more : List Text}
    (hmore : ∀ s : State, s.data.getLast? = some lf → s.data.length ≤ k → Short n more s)
    (lines : List Text) (hlast : s.data.getLast? = some lf)
    (h : s.data.length + lines.flatten.length ≤ k) : Short n (lines ++ more) s := by
  induction lines generalizing s with
  | nil => exact hmore s hlast (by simpa using h)
  | cons line lines ih =>
    rw [flatten_cons, length_append] at h
    by_cases hempty : line = []
    · rw [hempty]
      exact short_blank hlast (by omega) _
    · obtain ⟨⟨added, hadded, hlength, hend⟩, hnone⟩ := processLine_length s hempty
      apply short_cons hnone
      apply ih
      · rw [hadded]
        rcases hend with rfl | hend
        · rwa [append_nil]
        · rw [getLast?_append, hend]
          rfl
      · rw [hadded, length_append]
        omega

end AstraApi.EventStream
