import AstraApi.Router.Represents

/-!
# One step of an insertion

`Router::insert_recursive` looks at the next parameter or static segment of the pattern, goes
on in one child and takes this child back.  A step of a successful insertion is a value of
`Descends`: the split it makes, the tokens it reads, the child, the text that is left, and
what becomes of the node.
-/

namespace AstraApi.Routing

open List

variable {rest rest' : Bytes} {count : ℕ} {fb : Byte} {node child below : Node}

/-! ## Static segments and tokens -/

theorem segmentTail_le_path (rest : Bytes) : segmentTail rest <+: rest := by
  induction rest with
  | nil => exact nil_prefix
  | cons b rest ih =>
    simp only [segmentTail]
    split
    · exact nil_prefix
    · exact cons_prefix_cons.2 ⟨rfl, ih⟩

theorem patternTokens_literal {text : Bytes} (h : slash ∉ text) (rest : Bytes) :
    patternTokens (text ++ rest) = (patternTokens rest).map (literal text ++ ·) := by
  induction text with
  | nil => simp
  | cons b text ih =>
    have hb : b ≠ slash := fun heq => h (heq ▸ mem_cons_self)
    have hparam : ¬ startsParam (b :: (text ++ rest)) = true := by
      cases text ++ rest with
      | nil => simp [startsParam]
      | cons c tail => simp [startsParam, hb]
    rw [cons_append, patternTokens_byte hparam,
      ih fun hmem => h (mem_cons_of_mem b hmem), Option.map_map]
    rfl

theorem patternTokens_segmentTail (hcount : count ≤ (segmentTail rest).length) :
    patternTokens rest = (patternTokens (rest.drop count)).map (literal (rest.take count) ++ ·) := by
  induction count generalizing rest with
  | zero => simp
  | succ count ih =>
    cases rest with
    | nil => simp [segmentTail] at hcount
    | cons b rest =>
      simp only [segmentTail] at hcount
      split at hcount
      · simp at hcount
      · rename_i hparam
        rw [patternTokens_byte hparam, ih (by simpa using hcount), Option.map_map]
        rfl

/-- The same for the segment that starts at the current position. -/
theorem patternTokens_static (hparam : ¬ startsParam (fb :: rest) = true) (hpos : 0 < count)
    (hcount : count ≤ (staticSegment (fb :: rest)).length) :
    patternTokens (fb :: rest) = (patternTokens ((fb :: rest).drop count)).map
      (literal ((fb :: rest).take count) ++ ·) := by
  obtain ⟨count, rfl⟩ : ∃ k, count = k + 1 := ⟨count - 1, by omega⟩
  have hcount' : count ≤ (segmentTail rest).length := by simpa [staticSegment] using hcount
  rw [patternTokens_byte hparam, patternTokens_segmentTail hcount', Option.map_map]
  rfl

/-- The tokens from a position inside or at the end of a static segment: the
next byte of the segment, a parameter, or nothing. -/
theorem patternTokens_at_segmentTail (rest : Bytes) {tail : List Token}
    (hcount : count ≤ (segmentTail rest).length)
    (htail : patternTokens (rest.drop count) = some tail) :
    tail = [] ∨ (∃ slot tokens, tail = slot :: tokens ∧ isSlot slot = true) ∨
      ∃ b tokens, tail = .byte b :: tokens ∧ ((segmentTail rest).drop count).head? = some b := by
  induction rest generalizing count with
  | nil =>
    left
    simpa using htail.symm
  | cons b rest ih =>
    by_cases hparam : startsParam (b :: rest) = true
    · right; left
      obtain rfl : count = 0 := by simpa [segmentTail, hparam] using hcount
      cases hsplit : splitAtByte closeBrace (rest.drop 1) with
      | none => simp [patternTokens_unclosed hparam hsplit] at htail
      | some parts =>
        obtain ⟨content, rest'⟩ := parts
        rw [drop_zero, patternTokens_param hparam hsplit] at htail
        obtain ⟨tokens, _, rfl⟩ := Option.map_eq_some_iff.mp htail
        refine ⟨_, tokens, rfl, ?_⟩
        cases h : (paramContent content).2 <;> simp [slotToken, isSlot]
    · have hseg : segmentTail (b :: rest) = b :: segmentTail rest := by
        simp [segmentTail, hparam]
      rw [hseg] at hcount ⊢
      cases count with
      | zero =>
        rw [drop_zero, patternTokens_byte hparam] at htail
        obtain ⟨tokens, _, rfl⟩ := Option.map_eq_some_iff.mp htail
        exact .inr (.inr ⟨b, tokens, rfl, by simp⟩)
      | succ count => exact ih (by simpa using hcount) (by simpa using htail)

theorem staticSegment_le_path (path : Bytes) : staticSegment path <+: path := by
  cases path with
  | nil => exact nil_prefix
  | cons b rest => exact cons_prefix_cons.2 ⟨rfl, segmentTail_le_path _⟩

theorem take_staticSegment (path : Bytes) :
    path.take (staticSegment path).length = staticSegment path :=
  (prefix_iff_eq_take.mp (staticSegment_le_path _)).symm

/-- Where a text leaves a segment: what is common to both, and the next byte of the text. -/
theorem exists_split {text segment : Bytes} (hinside : ¬ text <+: segment) :
    commonLength text segment ≤ segment.length ∧
      text.take (commonLength text segment) = segment.take (commonLength text segment) ∧
      ∃ c tail, text.drop (commonLength text segment) = c :: tail ∧
        (segment.drop (commonLength text segment)).head? ≠ some c := by
  induction text generalizing segment with
  | nil => exact absurd nil_prefix hinside
  | cons a text ih =>
    cases segment with
    | nil => exact ⟨le_rfl, rfl, a, text, rfl, by simp⟩
    | cons b segment =>
      by_cases hab : a = b
      · subst hab
        obtain ⟨hle, htake, c, tail, hdrop, hapart⟩ :=
          ih fun h => hinside (cons_prefix_cons.mpr ⟨rfl, h⟩)
        rw [commonLength, if_pos rfl]
        exact ⟨Nat.succ_le_succ hle, congrArg (a :: ·) htake, c, tail, hdrop, hapart⟩
      · rw [commonLength, if_neg hab]
        exact ⟨Nat.zero_le _, rfl, a, text, rfl, by simpa using Ne.symm hab⟩

/-! ## Steps -/

def Node.existing (node : Node) (b : Byte) : Option Node :=
  (if b < 128 then node.child (node.dispatch b) else none).filter fun child =>
    child.paramName.isEmpty && !child.pfx.isEmpty

def Node.withSlot (node : Node) (kind : Bool) (child : Node) : Node :=
  if kind then { node.pushChild child with catchAllChild := toInt16 node.children.length }
  else { node.pushChild child with paramChild := toInt16 node.children.length }

def Node.withStatic (node : Node) (b : Byte) (child : Node) : Node :=
  if b < 128 then
    { node.pushChild child with
      hasDispatchCollision := node.hasDispatchCollision ||
        (decide (0 ≤ node.dispatch b) &&
          decide (node.dispatch b ≠ toInt16 node.children.length))
      dispatch := Function.update node.dispatch b (toInt16 node.children.length) }
  else node.pushChild child

/-- The splits of an insertion: the static child that is split, and after how many bytes of
its prefix. -/
def splits : ℕ → Node → Bytes → List (Node × ℕ)
  | 0, _, _ => []
  | _ + 1, _, [] => []
  | fuel + 1, node, fb :: rest =>
    let path := fb :: rest
    if startsParam path then
      match splitAtByte closeBrace (rest.drop 1) with
      | none => []
      | some (content, rest') =>
        let paramName := (paramContent content).1
        let isCatchAll := (paramContent content).2
        match (node.slotChild isCatchAll).filter fun child => child.paramName == paramName with
        | some child => splits fuel child rest'
        | none =>
          splits fuel { pfx := [slash], paramName := paramName, isCatchAll := isCatchAll }
            rest'
    else
      let newSeg := staticSegment path
      let createChild := splits fuel { pfx := newSeg } (path.drop newSeg.length)
      match node.existing fb with
      | some child =>
        if child.pfx.isPrefixOf newSeg then splits fuel child (path.drop child.pfx.length)
        else
          let common := commonLength child.pfx newSeg
          if 0 < common then
            (child, common) :: splits fuel (splitChild child common) (path.drop common)
          else createChild
      | none => createChild

/-- A step: the split it makes, the tokens it reads, the node in which the insertion goes on,
the text that is left, and how the node takes the result back. -/
inductive Descends (node : Node) (fb : Byte) (rest : Bytes) :
    List (Node × ℕ) → List Token → Node → Bytes → (Node → Node) → Prop where
  | slot {content rest' : Bytes} {child : Node} (hparam : startsParam (fb :: rest) = true)
      (hsplit : splitAtByte closeBrace (rest.drop 1) = some (content, rest'))
      (hchild : node.slotChild (paramContent content).2 = some child)
      (hname : child.paramName = (paramContent content).1) :
      Descends node fb rest [] [slotToken (paramContent content).1 (paramContent content).2]
        child rest' (node.setChild (node.slotIndex (paramContent content).2))
  | newSlot {content rest' : Bytes} (hparam : startsParam (fb :: rest) = true)
      (hsplit : splitAtByte closeBrace (rest.drop 1) = some (content, rest'))
      (hnone : ∀ child, node.slotChild (paramContent content).2 = some child →
        child.paramName ≠ (paramContent content).1) :
      Descends node fb rest [] [slotToken (paramContent content).1 (paramContent content).2]
        { pfx := [slash], paramName := (paramContent content).1,
          isCatchAll := (paramContent content).2 } rest' (node.withSlot (paramContent content).2)
  | follow {child : Node} (hparam : ¬ startsParam (fb :: rest) = true)
      (hchild : node.existing fb = some child) (hinside : child.pfx <+: staticSegment (fb :: rest)) :
      Descends node fb rest [] (literal child.pfx) child ((fb :: rest).drop child.pfx.length)
        (node.setChild (node.dispatch fb))
  | split {child : Node} {count : ℕ} (hparam : ¬ startsParam (fb :: rest) = true)
      (hchild : node.existing fb = some child)
      (hinside : ¬ child.pfx <+: staticSegment (fb :: rest))
      (hcount : count = commonLength child.pfx (staticSegment (fb :: rest))) (hpos : 0 < count) :
      Descends node fb rest [(child, count)] (literal (child.pfx.take count))
        (splitChild child count) ((fb :: rest).drop count) (node.setChild (node.dispatch fb))
  | create (hparam : ¬ startsParam (fb :: rest) = true)
      (hchild : ∀ child, node.existing fb = some child →
        commonLength child.pfx (staticSegment (fb :: rest)) = 0) :
      Descends node fb rest [] (literal (staticSegment (fb :: rest)))
        { pfx := staticSegment (fb :: rest) }
        ((fb :: rest).drop (staticSegment (fb :: rest)).length) (node.withStatic fb)

/-- An insertion makes one step and goes on below, or it meets a parameter without end. -/
theorem insertRecursive_step (node : Node) (fb : Byte) (rest : Bytes) :
    (∃ own word below rest' back, Descends node fb rest own word below rest' back ∧
      ∀ fuel, splits (fuel + 1) node (fb :: rest) = own ++ splits fuel below rest' ∧
        ∀ index, insertRecursive (fuel + 1) node (fb :: rest) index =
          (back (insertRecursive fuel below rest' index).1,
            (insertRecursive fuel below rest' index).2)) ∨
      patternTokens (fb :: rest) = none ∧ ∀ fuel, splits (fuel + 1) node (fb :: rest) = [] ∧
          ∀ index, insertRecursive (fuel + 1) node (fb :: rest) index = (node, false) := by
  by_cases hparam : startsParam (fb :: rest) = true
  · cases hsplit : splitAtByte closeBrace (rest.drop 1) with
    | none =>
      refine .inr ⟨patternTokens_unclosed hparam hsplit, fun fuel => ⟨?_, fun index => ?_⟩⟩
      · simp only [splits, if_pos hparam, hsplit]
      · simp only [insertRecursive, if_pos hparam, hsplit]
    | some parts =>
      obtain ⟨content, rest'⟩ := parts
      left
      cases hfound : (node.slotChild (paramContent content).2).filter
          fun child => child.paramName == (paramContent content).1 with
      | some child =>
        obtain ⟨hchild, hname⟩ := Option.filter_eq_some_iff.mp hfound
        refine ⟨_, _, _, _, _, .slot hparam hsplit hchild (beq_iff_eq.mp hname),
          fun fuel => ⟨?_, fun index => ?_⟩⟩
        · simp only [splits, if_pos hparam, hsplit, hfound, nil_append]
        · rw [Node.slotChild, Node.slotIndex] at hfound
          simp only [insertRecursive, if_pos hparam, hsplit, hfound]
          rfl
      | none =>
        have hnone (child : Node) (hchild : node.slotChild (paramContent content).2 = some child) :
            child.paramName ≠ (paramContent content).1 := by
          rw [hchild] at hfound
          simpa using hfound
        refine ⟨_, _, _, _, _, .newSlot hparam hsplit hnone, fun fuel => ⟨?_, fun index => ?_⟩⟩
        · simp only [splits, if_pos hparam, hsplit, hfound, nil_append]
        · rw [Node.slotChild, Node.slotIndex] at hfound
          simp only [insertRecursive, if_pos hparam, hsplit, hfound]
          rfl
  · left
    have hcreated (outcome : Node × Bool) : (if fb < 128 then
          ({ node.pushChild outcome.1 with
              hasDispatchCollision := node.hasDispatchCollision || (decide (0 ≤ node.dispatch fb) &&
                  decide (node.dispatch fb ≠ toInt16 node.children.length))
              dispatch := Function.update node.dispatch fb (toInt16 node.children.length) },
            outcome.2)
        else (node.pushChild outcome.1, outcome.2)) =
          (node.withStatic fb outcome.1, outcome.2) := by
      unfold Node.withStatic
      split <;> rfl
    cases hfound : node.existing fb with
    | none =>
      refine ⟨_, _, _, _, _, .create hparam fun child h => absurd (hfound.symm.trans h) (by simp),
        fun fuel => ⟨?_, fun index => ?_⟩⟩
      · simp [splits, if_neg hparam, hfound]
      · rw [Node.existing] at hfound
        simp only [insertRecursive, if_neg hparam, hfound]
        exact hcreated _
    | some child =>
      have hfound' := hfound
      rw [Node.existing] at hfound'
      by_cases hinside : child.pfx <+: staticSegment (fb :: rest)
      · have hprefix := isPrefixOf_iff_prefix.mpr hinside
        refine ⟨_, _, _, _, _, .follow hparam hfound hinside, fun fuel => ⟨?_, fun index => ?_⟩⟩
        · simp only [splits, if_neg hparam, hfound, if_pos hprefix, nil_append]
        · simp only [insertRecursive, if_neg hparam, hfound', if_pos hprefix]
      · have hprefix : ¬ child.pfx.isPrefixOf (staticSegment (fb :: rest)) = true :=
          fun h => hinside (List.isPrefixOf_iff_prefix.mp h)
        by_cases hpos : 0 < commonLength child.pfx (staticSegment (fb :: rest))
        · refine ⟨_, _, _, _, _, .split hparam hfound hinside rfl hpos,
            fun fuel => ⟨?_, fun index => ?_⟩⟩
          · simp only [splits, if_neg hparam, hfound, if_neg hprefix, if_pos hpos, singleton_append]
          · simp only [insertRecursive, if_neg hparam, hfound', if_neg hprefix, if_pos hpos]
        · have hapart (other : Node) (hother : node.existing fb = some other) :
              commonLength other.pfx (staticSegment (fb :: rest)) = 0 := by
            obtain rfl : child = other := Option.some.inj (hfound.symm.trans hother)
            exact Nat.le_zero.mp (not_lt.mp hpos)
          refine ⟨_, _, _, _, _, .create hparam hapart, fun fuel => ⟨?_, fun index => ?_⟩⟩
          · simp only [splits, if_neg hparam, hfound, if_neg hprefix, if_neg hpos, nil_append]
          · simp only [insertRecursive, if_neg hparam, hfound', if_neg hprefix, if_neg hpos]
            exact hcreated _

theorem Node.existing_eq_some {b : Byte} : node.existing b = some child ↔
    node.staticChild b = some child ∧ child.paramName = [] ∧ child.pfx ≠ [] := by
  rw [Node.existing, ← Node.staticChild, Option.filter_eq_some_iff]
  simp

theorem Node.staticChild_eq {b : Byte} (hchild : node.staticChild b = some child) :
    b < 128 ∧ node.child (node.dispatch b) = some child := by
  unfold Node.staticChild at hchild
  split at hchild
  · exact ⟨‹_›, hchild⟩
  · simp at hchild

theorem length_drop_lt {b : Byte} {fuel : ℕ} (hpos : 0 < count)
    (hfuel : (b :: rest).length < fuel + 1) : ((b :: rest).drop count).length < fuel := by
  simp only [length_drop, length_cons] at hfuel ⊢
  omega

section Descends

variable {own : List (Node × ℕ)} {word : List Token} {back : Node → Node}

theorem Descends.reads (h : Descends node fb rest own word below rest' back) :
    patternTokens (fb :: rest) = (patternTokens rest').map (word ++ ·) := by
  cases h with
  | slot hparam hsplit => exact patternTokens_param hparam hsplit
  | newSlot hparam hsplit => exact patternTokens_param hparam hsplit
  | @follow child hparam hchild hinside =>
    obtain ⟨-, -, hne⟩ := Node.existing_eq_some.mp hchild
    rw [patternTokens_static hparam (length_pos_iff.mpr hne) hinside.length_le,
      ← prefix_iff_eq_take.mp (hinside.trans (staticSegment_le_path _))]
  | split hparam hchild hinside hcount hpos =>
    obtain ⟨hle, htake, -⟩ := exists_split hinside
    rw [← hcount] at hle htake
    rw [patternTokens_static hparam hpos hle, htake, ← take_staticSegment, take_take,
      min_eq_left hle]
  | create hparam hchild =>
    have hpos : 0 < (staticSegment (fb :: rest)).length := by simp [staticSegment]
    rw [patternTokens_static hparam hpos le_rfl, take_staticSegment]

/-- A step reads some of the text. -/
theorem Descends.shorter (h : Descends node fb rest own word below rest' back) :
    rest'.length < (fb :: rest).length := by
  have hdrop {count : ℕ} (hpos : 0 < count) : ((fb :: rest).drop count).length < _ :=
    length_drop_lt hpos (Nat.lt_succ_self _)
  cases h with
  | slot hparam hsplit =>
    have hlength := length_of_splitAtByte hsplit
    rw [length_drop] at hlength
    rw [length_cons]
    omega
  | newSlot hparam hsplit =>
    have hlength := length_of_splitAtByte hsplit
    rw [length_drop] at hlength
    rw [length_cons]
    omega
  | follow hparam hchild =>
    exact hdrop (length_pos_iff.mpr (Node.existing_eq_some.mp hchild).2.2)
  | split hparam hchild hinside hcount hpos => exact hdrop hpos
  | create => exact hdrop (Nat.succ_pos _)

end Descends

/-- Insertion below a node keeps the node's own label. -/
theorem insertRecursive_label (fuel : ℕ) (node : Node) (path : Bytes) (index : ℤ) :
    (insertRecursive fuel node path index).1.pfx = node.pfx ∧
      (insertRecursive fuel node path index).1.paramName = node.paramName ∧
      (insertRecursive fuel node path index).1.isCatchAll = node.isCatchAll := by
  cases fuel with
  | zero => exact ⟨rfl, rfl, rfl⟩
  | succ fuel =>
    cases path with
    | nil => exact ⟨rfl, rfl, rfl⟩
    | cons fb rest =>
      rcases insertRecursive_step node fb rest with
        ⟨own, word, below, rest', back, hstep, heq⟩ | ⟨-, heq⟩
      · rw [(heq _).2]
        cases hstep with
        | slot => exact ⟨rfl, rfl, rfl⟩
        | newSlot =>
          simp only [Node.withSlot]
          split <;> exact ⟨rfl, rfl, rfl⟩
        | follow => exact ⟨rfl, rfl, rfl⟩
        | split => exact ⟨rfl, rfl, rfl⟩
        | create =>
          simp only [Node.withStatic]
          split <;> exact ⟨rfl, rfl, rfl⟩
      · rw [(heq _).2]
        exact ⟨rfl, rfl, rfl⟩

end AstraApi.Routing
