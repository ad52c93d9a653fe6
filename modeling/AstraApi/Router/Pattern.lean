import AstraApi.Lib.Bytes
import AstraApi.Lib.SlotTable

/-!
# Route patterns

The router understands three kinds of text in a pattern: `/{name}`, which
stands for one non-empty path segment, `/{name:path}`, which stands for the
rest of the path, and literal bytes.  This module reads a pattern into tokens
and says what a token sequence matches and which values its parameters take.
-/

namespace AstraApi.Routing

open List
open SlotTable

def slash : Byte := 47
def colon : Byte := 58
def openBrace : Byte := 123
def closeBrace : Byte := 125

inductive Token where
  | byte (value : Byte)
  | param (name : Bytes)
  | catchAll (name : Bytes)
  deriving DecidableEq

/-- The text before and after the first occurrence of `target`, as
`std::string::find` and `substr` give it. -/
def splitAtByte (target : Byte) : Bytes → Option (Bytes × Bytes)
  | [] => none
  | b :: rest =>
    if b = target then some ([], rest)
    else (splitAtByte target rest).map fun parts => (b :: parts.1, parts.2)

/-- Name and catch-all flag of the text between the braces.  A constraint
other than `path` is dropped. -/
def paramContent (content : Bytes) : Bytes × Bool :=
  match splitAtByte colon content with
  | none => (content, false)
  | some (name, constraint) => (name, constraint == ascii "path")

def slotToken (name : Bytes) (isCatchAll : Bool) : Token :=
  if isCatchAll then .catchAll name else .param name

/-- Whether the text starts with `/{`. -/
def startsParam : Bytes → Bool
  | b :: c :: _ => b == slash && c == openBrace
  | _ => false

/-- The tokens of a pattern; `none` when a `/{` is never closed. -/
def scan : ℕ → Bytes → Option (List Token)
  | 0, _ => none
  | _ + 1, [] => some []
  | fuel + 1, b :: rest =>
    if startsParam (b :: rest) then
      match splitAtByte closeBrace (rest.drop 1) with
      | none => none
      | some (content, rest') =>
        (scan fuel rest').map
          (slotToken (paramContent content).1 (paramContent content).2 :: ·)
    else (scan fuel rest).map (.byte b :: ·)

def patternTokens (pattern : Bytes) : Option (List Token) :=
  scan (pattern.length + 1) pattern

/-- The parameter bindings of a token sequence on a path: `none` when the
sequence does not match the whole path. -/
def bindings : List Token → Bytes → Option (List (Bytes × Bytes))
  | [], [] => some []
  | [], _ :: _ => none
  | _ :: _, [] => none
  | .byte b :: tokens, c :: path => if b = c then bindings tokens path else none
  | .param name :: tokens, c :: path =>
    if c = slash ∧ path.takeWhile (· != slash) ≠ [] then
      (bindings tokens (path.dropWhile (· != slash))).map
        ((name, path.takeWhile (· != slash)) :: ·)
    else none
  | .catchAll name :: tokens, c :: path =>
    if c = slash ∧ tokens = [] then some [(name, path)] else none

def Matches (tokens : List Token) (path : Bytes) : Prop :=
  (bindings tokens path).isSome

instance (tokens : List Token) (path : Bytes) : Decidable (Matches tokens path) :=
  inferInstanceAs (Decidable (_ = true))

/-- A node has one slot for `/{name}` and one for `/{name:path}`. -/
def rival : Token → Token → Bool
  | .param _, .param _ => true
  | .catchAll _, .catchAll _ => true
  | _, _ => false

/-- The order in which the search tries the edges of a node. -/
def rank : Token → ℕ
  | .byte _ => 0
  | .param _ => 1
  | .catchAll _ => 2

/-- The search tries `left` before `right`: at the first difference its token
comes earlier in `rank`. -/
def beats : List Token → List Token → Bool
  | a :: left, b :: right =>
    if a = b then beats left right else decide (rank a < rank b)
  | _, _ => false

def isSlot : Token → Bool
  | .byte _ => false
  | _ => true

/-- `{name:path}` stands at the end only. -/
def catchAllLast : List Token → Bool
  | [] => true
  | [_] => true
  | .catchAll _ :: _ :: _ => false
  | _ :: b :: tokens => catchAllLast (b :: tokens)

@[simp]
theorem bindings_nil_nil : bindings [] [] = some [] := rfl

@[simp]
theorem bindings_nil_cons (c : Byte) (path : Bytes) :
    bindings [] (c :: path) = none := rfl

@[simp]
theorem bindings_cons_nil (token : Token) (tokens : List Token) :
    bindings (token :: tokens) [] = none := by
  cases token <;> rfl

theorem bindings_bytes_append (text : Bytes) (tokens : List Token) (path : Bytes) :
    bindings (text.map .byte ++ tokens) (text ++ path) = bindings tokens path := by
  induction text with
  | nil => rfl
  | cons b text ih => simpa [bindings] using ih

/-- Literal tokens match only a path that starts with them. -/
theorem isPrefix_of_bindings_bytes {text : Bytes} {tokens : List Token} {path : Bytes}
    (hmatch : (bindings (text.map .byte ++ tokens) path).isSome) : text <+: path := by
  induction text generalizing path with
  | nil => exact nil_prefix
  | cons b text ih =>
    cases path with
    | nil => simp at hmatch
    | cons c path =>
      by_cases hbc : b = c
      · subst hbc
        simp only [map_cons, cons_append, bindings, if_true] at hmatch
        exact (cons_prefix_cons).2 ⟨rfl, ih hmatch⟩
      · simp [bindings, hbc] at hmatch

/-! ## Reading a pattern token by token -/

theorem length_of_splitAtByte {target : Byte} {text left right : Bytes}
    (hsplit : splitAtByte target text = some (left, right)) :
    left.length + right.length + 1 = text.length := by
  induction text generalizing left right with
  | nil => simp [splitAtByte] at hsplit
  | cons b rest ih =>
    simp only [splitAtByte] at hsplit
    split at hsplit
    · obtain ⟨rfl, rfl⟩ : [] = left ∧ rest = right := by simpa using hsplit
      simp
    · obtain ⟨parts, hparts, heq⟩ := Option.map_eq_some_iff.mp hsplit
      have hlength : parts.1.length + parts.2.length + 1 = rest.length := ih hparts
      obtain ⟨rfl, rfl⟩ : b :: parts.1 = left ∧ parts.2 = right := by simpa using heq
      simp only [length_cons]
      omega

theorem splitAtByte_append {target : Byte} {left : Bytes} (h : target ∉ left) (right : Bytes) :
    splitAtByte target (left ++ target :: right) = some (left, right) := by
  induction left with
  | nil => simp [splitAtByte]
  | cons b left ih =>
    have hb : b ≠ target := fun heq => h (heq ▸ mem_cons_self)
    rw [cons_append, splitAtByte, if_neg hb, ih fun hmem => h (mem_cons_of_mem b hmem)]
    rfl

theorem splitAtByte_none {target : Byte} {text : Bytes} (h : target ∉ text) :
    splitAtByte target text = none := by
  induction text with
  | nil => rfl
  | cons b text ih =>
    have hb : b ≠ target := fun heq => h (heq ▸ mem_cons_self)
    rw [splitAtByte, if_neg hb, ih fun hmem => h (mem_cons_of_mem b hmem)]
    rfl

/-- Fuel above the length of the text does not change the result. -/
theorem scan_eq_of_lt {fuel fuel' : ℕ} {text : Bytes} (hfuel : text.length < fuel)
    (hfuel' : text.length < fuel') : scan fuel text = scan fuel' text := by
  induction fuel generalizing fuel' text with
  | zero => omega
  | succ fuel ih =>
    obtain ⟨fuel', rfl⟩ : ∃ k, fuel' = k + 1 := ⟨fuel' - 1, by omega⟩
    cases text with
    | nil => rfl
    | cons b rest =>
      simp only [length_cons] at hfuel hfuel'
      simp only [scan]
      split
      · cases hsplit : splitAtByte closeBrace (rest.drop 1) with
        | none => rfl
        | some parts =>
          have hlength : parts.1.length + parts.2.length + 1 = (rest.drop 1).length :=
            length_of_splitAtByte hsplit
          simp only [length_drop] at hlength
          have hrest : scan fuel parts.2 = scan fuel' parts.2 := ih (by omega) (by omega)
          simp [hrest]
      · have hrest : scan fuel rest = scan fuel' rest := ih (by omega) (by omega)
        rw [hrest]

@[simp]
theorem patternTokens_nil : patternTokens [] = some [] := rfl

theorem patternTokens_param {b : Byte} {rest content rest' : Bytes}
    (hparam : startsParam (b :: rest) = true)
    (hsplit : splitAtByte closeBrace (rest.drop 1) = some (content, rest')) :
    patternTokens (b :: rest) = (patternTokens rest').map
      (slotToken (paramContent content).1 (paramContent content).2 :: ·) := by
  have hlength := length_of_splitAtByte hsplit
  simp only [length_drop] at hlength
  have hfuel : scan (rest.length + 1) rest' = scan (rest'.length + 1) rest' :=
    scan_eq_of_lt (by omega) (by omega)
  simp only [patternTokens, length_cons, scan, if_pos hparam, hsplit, hfuel]

theorem patternTokens_unclosed {b : Byte} {rest : Bytes}
    (hparam : startsParam (b :: rest) = true)
    (hsplit : splitAtByte closeBrace (rest.drop 1) = none) :
    patternTokens (b :: rest) = none := by
  simp only [patternTokens, length_cons, scan, if_pos hparam, hsplit]

theorem patternTokens_byte {b : Byte} {rest : Bytes}
    (hparam : ¬ startsParam (b :: rest) = true) :
    patternTokens (b :: rest) = (patternTokens rest).map (.byte b :: ·) := by
  simp [patternTokens, scan, if_neg hparam]

end AstraApi.Routing
