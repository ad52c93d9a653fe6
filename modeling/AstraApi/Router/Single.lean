import AstraApi.Router.Routes

/-!
# A router with one route

After one insertion the trie is a chain: a static segment or a parameter below the other,
and a route at its end if the pattern was read to the end.  A pattern that starts with `/`
is then found exactly on the paths it matches, also where the table of several routes
would need every `{name:path}` to stand last.
-/

namespace AstraApi.Routing

open List Option

variable {b : Byte} {rest path pattern : Bytes} {child : Node} {result : MatchParams} {fuel : ℕ}

/-- A router after one call of `insert`, whatever the call returned. -/
def Router.single (pattern : Bytes) : Router := (Router.insert {} pattern 0).1

/-- A node that nothing was inserted below. -/
def Node.bare (text name : Bytes) (kind : Bool) : Node :=
  { pfx := text, paramName := name, isCatchAll := kind }

/-- The outcome of a search that should find `found`. -/
def Finds (params : List (Bytes × Bytes)) (found : Option (List (Bytes × Bytes)))
    (out : Bool × MatchParams) : Prop :=
  match found with
  | some bound => out = (true, ⟨0, (params ++ bound).take MatchParams.maxInline⟩)
  | none => out.1 = false

/-! ## The bindings of a pattern, piece by piece -/

theorem patternBindings_nil (path : Bytes) :
    patternBindings [] path = if path = [] then some [] else none := by
  cases path <;> rfl

theorem patternBindings_unclosed (path : Bytes)
    (hparam : startsParam (b :: rest) = true)
    (hsplit : splitAtByte closeBrace (rest.drop 1) = none) :
    patternBindings (b :: rest) path = none := by
  rw [patternBindings, patternTokens_unclosed hparam hsplit]
  rfl

theorem patternBindings_cons_nil :
    patternBindings (b :: rest) [] = none := by
  by_cases hparam : startsParam (b :: rest) = true
  · cases hsplit : splitAtByte closeBrace (rest.drop 1) with
    | none => exact patternBindings_unclosed [] hparam hsplit
    | some parts =>
      rw [patternBindings, patternTokens_param hparam hsplit]
      cases patternTokens parts.2 <;> simp
  · rw [patternBindings, patternTokens_byte hparam]
    cases patternTokens rest <;> simp

section Param

variable {b fb : Byte} {rest content rest' : Bytes} (path : Bytes)

/-- A parameter takes one segment. -/
theorem patternBindings_param (hparam : startsParam (b :: rest) = true)
    (hsplit : splitAtByte closeBrace (rest.drop 1) = some (content, rest'))
    (hkind : (paramContent content).2 = false) :
    patternBindings (b :: rest) (fb :: path) =
      if fb = slash ∧ path.takeWhile (· != slash) ≠ [] then
        (patternBindings rest' (path.dropWhile (· != slash))).map
          (((paramContent content).1, path.takeWhile (· != slash)) :: ·)
      else none := by
  rw [patternBindings, patternTokens_param hparam hsplit, hkind, patternBindings]
  cases patternTokens rest' with
  | none => simp
  | some tokens => rfl

theorem patternBindings_catchAll (hparam : startsParam (b :: rest) = true)
    (hsplit : splitAtByte closeBrace (rest.drop 1) = some (content, rest'))
    (hkind : (paramContent content).2 = true) :
    patternBindings (b :: rest) (fb :: path) =
      if fb = slash ∧ rest' = [] then some [((paramContent content).1, path)] else none := by
  rw [patternBindings, patternTokens_param hparam hsplit, hkind]
  cases rest' with
  | nil =>
    simp [slotToken, bindings]
  | cons c rest' =>
    rw [if_neg (by simp)]
    cases htokens : patternTokens (c :: rest') with
    | none => rfl
    | some tokens =>
      have hne : tokens ≠ [] := by
        rintro rfl
        have hbound : patternBindings (c :: rest') [] = some [] := by
          rw [patternBindings, htokens]
          rfl
        rw [patternBindings_cons_nil] at hbound
        cases hbound
      simp [slotToken, bindings, hne]

end Param

theorem patternBindings_static {fb : Byte} (path : Bytes)
    (hparam : ¬ startsParam (fb :: rest) = true) :
    patternBindings (fb :: rest) path =
      if staticSegment (fb :: rest) <+: path then
        patternBindings ((fb :: rest).drop (staticSegment (fb :: rest)).length)
          (path.drop (staticSegment (fb :: rest)).length)
      else none := by
  have hpos : 0 < (staticSegment (fb :: rest)).length := Nat.succ_pos _
  rw [patternBindings, patternTokens_static hparam hpos le_rfl, take_staticSegment, patternBindings]
  cases patternTokens ((fb :: rest).drop (staticSegment (fb :: rest)).length) with
  | none => simp
  | some tail =>
    rw [Option.map_some, bind_some, bind_some]
    split
    · rename_i hprefix
      obtain ⟨path, rfl⟩ := hprefix
      rw [literal, bindings_bytes_append, drop_left]
    · rename_i hprefix
      rw [← not_isSome_iff_eq_none]
      intro hsome
      exact hprefix (isPrefix_of_bindings_bytes hsome)

/-! ## The chain that one insertion builds -/

theorem head_drop_segmentTail (rest : Bytes) :
    ∀ c ∈ (rest.drop (segmentTail rest).length).head?, c < 128 := by
  induction rest with
  | nil => simp
  | cons b rest ih =>
    by_cases hparam : startsParam (b :: rest) = true
    · have hslash : b = slash := by
        cases rest with
        | nil => cases hparam
        | cons d rest => exact eq_of_beq (Bool.and_eq_true_iff.mp hparam).1
      have hnil : segmentTail (b :: rest) = [] := by rw [segmentTail, if_pos hparam]
      rw [hnil, length_nil, drop_zero, head?_cons]
      intro c hc
      rw [← Option.some.inj hc, hslash]
      decide
    · simpa [segmentTail, hparam] using ih

/-- A search at a node without children and without a route. -/
theorem match_bare (fuel : ℕ) (text name : Bytes) (kind : Bool) (path : Bytes)
    (result : MatchParams) :
    (matchRecursive fuel (.bare text name kind) path result).1 = false := by
  cases fuel with
  | zero => rfl
  | succ fuel =>
    cases path with
    | nil => simp [matchRecursive, Node.bare]
    | cons fb rest => simp [matchRecursive, Node.bare, Node.child]

/-- At the end of the path a node above a segment or a parameter has no route. -/
theorem match_nil (fuel : ℕ) {node : Node} (hpfx : child.pfx ≠ [])
    (hchildren : node.children = [child]) (hroute : node.routeIndex = -1) :
    Finds result.params none (matchRecursive (fuel + 1) node [] result) := by
  simp [Finds, matchRecursive, hchildren, hroute, hpfx]

/-- A route at a node that has no children. -/
theorem match_end (text name : Bytes) (kind : Bool) (hfuel : path.length < fuel)
    (hparams : result.params.length ≤ MatchParams.maxInline) :
    Finds result.params (patternBindings [] path) (matchRecursive fuel
      { Node.bare text name kind with routeIndex := 0 } path result) := by
  obtain ⟨fuel, rfl⟩ : ∃ k, fuel = k + 1 := ⟨fuel - 1, by omega⟩
  cases path with
  | nil =>
    simp [Finds, patternBindings_nil, matchRecursive, take_of_length_le hparams]
  | cons fb rest => simp [Finds, patternBindings_nil, matchRecursive, Node.bare, Node.child]

/-- The node above a parameter. -/
theorem match_param (text name : Bytes) (kind : Bool) {label : Bytes}
    (found : Bytes → Option (List (Bytes × Bytes))) (fb : Byte) (hname : child.paramName = label)
    (hbelow : ∀ value, Finds ((result.add label value).params)
      (found (path.dropWhile (· != slash))) (matchRecursive fuel child
        (path.dropWhile (· != slash)) (result.add label value)))
    (hparams : result.params.length ≤ MatchParams.maxInline) :
    Finds result.params (if fb = slash ∧ path.takeWhile (· != slash) ≠ [] then
        (found (path.dropWhile (· != slash))).map ((label, path.takeWhile (· != slash)) :: ·)
      else none)
      (matchRecursive (fuel + 1) { Node.bare text name kind with
        children := [child], paramChild := 0 } (fb :: path) result) := by
  subst hname
  have hvalue := hbelow (path.takeWhile (· != slash))
  rw [add_params _ _ hparams] at hvalue
  by_cases hfb : fb = slash
  · by_cases hne : path.takeWhile (· != slash) = []
    · simp [Finds, matchRecursive, Node.bare, Node.child, hfb, hne]
    · cases hfound : found (path.dropWhile (· != slash)) with
      | none =>
        rw [hfound] at hvalue
        simp only [Finds] at hvalue
        simp [Finds, matchRecursive, Node.bare, Node.child, hfb, hne, hvalue]
      | some bound =>
        rw [hfound] at hvalue
        simp only [Finds] at hvalue
        rw [take_take_append, append_assoc] at hvalue
        simp [Finds, matchRecursive, Node.bare, Node.child, hfb, hne, hvalue]
  · simp [Finds, matchRecursive, Node.bare, Node.child, hfb]

theorem match_catchAll (fuel : ℕ) (text name : Bytes) (kind : Bool) (child : Node)
    (fb : Byte) (path : Bytes)
    (hparams : result.params.length ≤ MatchParams.maxInline)
    (hroute : child.routeIndex = if rest = [] then 0 else -1) :
    Finds result.params (if fb = slash ∧ rest = [] then some [(child.paramName, path)] else none)
      (matchRecursive (fuel + 1) { Node.bare text name kind with
        children := [child], catchAllChild := 0 } (fb :: path) result) := by
  by_cases hfb : fb = slash
  · by_cases hrest : rest = []
    · have hadd := add_params child.paramName path hparams
      simp [Finds, matchRecursive, Node.bare, Node.child, hfb, hroute, hrest, ← hadd]
    · simp [Finds, matchRecursive, Node.bare, Node.child, hfb, hroute, hrest]
  · simp [Finds, matchRecursive, Node.bare, Node.child, hfb]

/-- The node above a static segment, on a path that dispatch can follow. -/
theorem match_static (text name : Bytes) (kind : Bool)
    {fb c : Byte} {segment : Bytes}
    {found : Option (List (Bytes × Bytes))} (hfb : fb < 128) (hname : child.paramName = [])
    (hpfx : child.pfx = fb :: segment)
    (hbelow : Finds result.params found
      (matchRecursive fuel child (path.drop segment.length) result)) :
    Finds result.params (if fb :: segment <+: c :: path then found else none)
      (matchRecursive (fuel + 1) { Node.bare text name kind with
        children := [child], dispatch := Function.update (fun _ => -1) fb 0 } (c :: path)
        result) := by
  by_cases hprefix : fb :: segment <+: c :: path
  · obtain ⟨rfl, hsegment⟩ := cons_prefix_cons.mp hprefix
    cases found with
    | none =>
      have hout : (matchRecursive fuel child (path.drop segment.length) result).1 = false :=
        hbelow
      simp [Finds, matchRecursive, Node.bare, Node.child, hfb, hname, hpfx, hsegment, hout]
    | some bound =>
      have hout : matchRecursive fuel child (path.drop segment.length) result =
          (true, ⟨0, (result.params ++ bound).take MatchParams.maxInline⟩) := hbelow
      simp [Finds, matchRecursive, Node.child, hfb, hname, hpfx, hsegment, hout]
  · rw [if_neg hprefix]
    by_cases hc : c = fb
    · subst hc
      have hsegment : ¬ segment <+: path := fun h => hprefix (cons_prefix_cons.mpr ⟨rfl, h⟩)
      simp [Finds, matchRecursive, Node.bare, Node.child, hfb, hpfx, hsegment]
    · simp [Finds, matchRecursive, Node.bare, Node.child, hc]

/-- The node above a static segment that dispatch cannot follow. -/
theorem match_dead (fuel : ℕ) (text name : Bytes) (kind : Bool) (hpfx : child.pfx ≠ []) :
    (matchRecursive fuel { Node.bare text name kind with children := [child] } path
      result).1 = false := by
  cases fuel with
  | zero => rfl
  | succ fuel =>
    cases path with
    | nil => simp [matchRecursive, Node.bare, hpfx]
    | cons c path => simp [matchRecursive, Node.bare, Node.child]

theorem toInt16_zero : toInt16 0 = 0 := toInt16_of_lt (by norm_num)

theorem insert_bare_unclosed (fuel : ℕ) (text name : Bytes) (kind : Bool) (index : ℤ)
    (hparam : startsParam (b :: rest) = true)
    (hsplit : splitAtByte closeBrace (rest.drop 1) = none) :
    (insertRecursive (fuel + 1) (.bare text name kind) (b :: rest) index).1 =
      .bare text name kind := by
  simp only [insertRecursive, if_pos hparam, hsplit]

/-- What stands between the braces decides which slot is filled. -/
theorem insert_bare_param (fuel : ℕ) (text name : Bytes) (kind : Bool)
    {content rest' : Bytes} (index : ℤ) (hparam : startsParam (b :: rest) = true)
    (hsplit : splitAtByte closeBrace (rest.drop 1) = some (content, rest')) :
    (insertRecursive (fuel + 1) (.bare text name kind) (b :: rest) index).1 =
      if (paramContent content).2 then
        { Node.bare text name kind with
          children := [(insertRecursive fuel
            (.bare [slash] (paramContent content).1 (paramContent content).2) rest' index).1]
          catchAllChild := 0 }
      else
        { Node.bare text name kind with
          children := [(insertRecursive fuel
            (.bare [slash] (paramContent content).1 (paramContent content).2) rest' index).1]
          paramChild := 0 } := by
  have hnone (k : Bool) : (Node.bare text name kind).child
      (if k then (Node.bare text name kind).catchAllChild
        else (Node.bare text name kind).paramChild) = none := by
    cases k <;> rfl
  have hindex : toInt16 (Node.bare text name kind).children.length = 0 := toInt16_zero
  simp only [insertRecursive, if_pos hparam, hsplit, hnone, filter_none, hindex]
  cases (paramContent content).2 <;> rfl

theorem insert_bare_static (fuel : ℕ) (text name : Bytes) (kind : Bool) {fb : Byte} (index : ℤ)
    (hparam : ¬ startsParam (fb :: rest) = true) :
    (insertRecursive (fuel + 1) (.bare text name kind) (fb :: rest) index).1 =
      if fb < 128 then
        { Node.bare text name kind with
          children := [(insertRecursive fuel (.bare (staticSegment (fb :: rest)) [] false)
            ((fb :: rest).drop (staticSegment (fb :: rest)).length) index).1]
          dispatch := Function.update (fun _ => -1) fb 0 }
      else
        { Node.bare text name kind with
          children := [(insertRecursive fuel (.bare (staticSegment (fb :: rest)) [] false)
            ((fb :: rest).drop (staticSegment (fb :: rest)).length) index).1] } := by
  have hnone : (if fb < 128 then (Node.bare text name kind).child
      ((Node.bare text name kind).dispatch fb) else none) = none := by
    rw [ite_eq_right_iff]
    intro
    rfl
  have hindex : toInt16 (Node.bare text name kind).children.length = 0 := toInt16_zero
  simp only [insertRecursive, if_neg hparam, hnone, filter_none, hindex]
  by_cases hfb : fb < 128
  · simp only [if_pos hfb]
    rfl
  · simp only [if_neg hfb]
    rfl

/-- Only a pattern that was read to its end leaves a route at the node. -/
theorem routeIndex_insert_bare (text name : Bytes) (kind : Bool)
    (hfuel : pattern.length < fuel) :
    (insertRecursive fuel (.bare text name kind) pattern 0).1.routeIndex =
      if pattern = [] then 0 else -1 := by
  obtain ⟨fuel, rfl⟩ : ∃ k, fuel = k + 1 := ⟨fuel - 1, by omega⟩
  cases pattern with
  | nil => rfl
  | cons fb rest =>
    by_cases hparam : startsParam (fb :: rest) = true
    · cases hsplit : splitAtByte closeBrace (rest.drop 1) with
      | none =>
        rw [insert_bare_unclosed _ _ _ _ 0 hparam hsplit]
        rfl
      | some parts =>
        rw [insert_bare_param _ _ _ _ 0 hparam hsplit]
        split <;> rfl
    · rw [insert_bare_static _ _ _ _ 0 hparam]
      split <;> rfl

theorem head_dropWhile_slash (path : Bytes) :
    ∀ c ∈ (path.dropWhile (· != slash)).head?, c < 128 := by
  have hhead := head?_dropWhile_not (· != slash) path
  intro c hc
  rw [mem_def.mp hc] at hhead
  obtain rfl : c = slash := by simpa using hhead
  decide

/-- The search in the chain, where dispatch can follow the path. -/
theorem match_insert (text name : Bytes) (kind : Bool)
    (hfuel : pattern.length < fuel) {fuel' : ℕ}
    (hfuel' : path.length < fuel') (hparams : result.params.length ≤ MatchParams.maxInline)
    (hstart : (∀ c ∈ pattern.head?, c < 128) ∨ ∀ c ∈ path.head?, c < 128) :
    Finds result.params (patternBindings pattern path)
      (matchRecursive fuel' (insertRecursive fuel (.bare text name kind) pattern 0).1 path
        result) := by
  induction fuel generalizing text name kind pattern fuel' path result with
  | zero => omega
  | succ fuel ih =>
    obtain ⟨fuel', rfl⟩ : ∃ k, fuel' = k + 1 := ⟨fuel' - 1, by omega⟩
    cases pattern with
    | nil => exact match_end _ _ _ hfuel' hparams
    | cons fb rest =>
      simp only [length_cons] at hfuel
      by_cases hparam : startsParam (fb :: rest) = true
      · cases hsplit : splitAtByte closeBrace (rest.drop 1) with
        | none =>
          rw [insert_bare_unclosed _ _ _ _ 0 hparam hsplit, patternBindings_unclosed _ hparam hsplit]
          exact match_bare _ _ _ _ _ _
        | some parts =>
          obtain ⟨content, rest'⟩ := parts
          have hlength := length_of_splitAtByte hsplit
          simp only [length_drop] at hlength
          have hshort : rest'.length < fuel := by omega
          rw [insert_bare_param _ _ _ _ 0 hparam hsplit]
          obtain ⟨hpfx, hname, -⟩ := insertRecursive_label _ _ _ 0
          have hroute := routeIndex_insert_bare [slash] (paramContent content).1
            (paramContent content).2 hshort
          cases path with
          | nil =>
            rw [patternBindings_cons_nil]
            split
            · exact match_nil _ (by rw [hpfx]; exact cons_ne_nil _ _) rfl rfl
            · exact match_nil _ (by rw [hpfx]; exact cons_ne_nil _ _) rfl rfl
          | cons c path =>
            cases hkind : (paramContent content).2 with
            | false =>
              rw [hkind] at hname
              have hshorter : (path.dropWhile (· != slash)).length < fuel' := by
                have := (dropWhile_sublist (· != slash) (l := path)).length_le
                simp only [length_cons] at hfuel'
                omega
              have hbelow (value : Bytes) := ih [slash] (paramContent content).1 false
                hshort hshorter
                ((add_params _ _ hparams).symm ▸ length_take_le _ _ :
                  (result.add (paramContent content).1 value).params.length ≤ _)
                (.inr (head_dropWhile_slash _))
              rw [patternBindings_param _ hparam hsplit hkind]
              exact match_param _ _ _ _ c hname hbelow hparams
            | true =>
              rw [hkind] at hname hroute
              rw [patternBindings_catchAll _ hparam hsplit hkind, if_pos rfl]
              have hnode := match_catchAll fuel' text name kind _ c path hparams hroute
              rw [hname] at hnode
              exact hnode
      · rw [insert_bare_static _ _ _ _ 0 hparam, patternBindings_static _ hparam]
        have hlength : ((fb :: rest).drop (staticSegment (fb :: rest)).length).length < fuel := by
          rw [length_drop, length_cons, staticSegment, length_cons]
          omega
        obtain ⟨hpfx, hname, -⟩ := insertRecursive_label _ _ _ 0
        cases path with
        | nil =>
          rw [if_neg (by simp [staticSegment])]
          split
          · exact match_nil _ (by rw [hpfx]; exact cons_ne_nil _ _) rfl rfl
          · exact match_nil _ (by rw [hpfx]; exact cons_ne_nil _ _) rfl rfl
        | cons c path =>
          simp only [length_cons] at hfuel'
          by_cases hfb : fb < 128
          · rw [if_pos hfb]
            apply match_static _ _ _ hfb hname hpfx
            apply ih _ _ _ hlength _ hparams
            · exact .inl (head_drop_segmentTail _)
            · rw [length_drop, length_cons, staticSegment, length_cons]
              omega
          · rw [if_neg hfb, if_neg]
            · exact match_dead _ _ _ _ (by
                rw [hpfx]
                exact cons_ne_nil _ _)
            · intro hprefix
              obtain ⟨heq, -⟩ := cons_prefix_cons.mp hprefix
              cases hstart with
              | inl hstart => exact hfb (hstart _ rfl)
              | inr hstart => exact hfb (heq ▸ hstart c rfl)

theorem patternBindings_plain (hstatic : openBrace ∉ pattern) (path : Bytes) :
    patternBindings pattern path = if path = pattern then some [] else none := by
  rw [patternBindings, patternTokens_static_pattern hstatic, bind_some]
  split
  · rename_i heq
    rw [heq, bindings_literal_self]
  · rename_i hne
    rw [← not_isSome_iff_eq_none]
    intro hsome
    exact hne (eq_of_matches_literal hsome).symm

/-- A route whose pattern starts with `/` is found exactly on the paths it matches. -/
theorem at_single (hslash : pattern.head? = some slash) (path : Bytes) :
    (Router.single pattern).at path =
      (patternBindings pattern path).map fun bound => ⟨0, bound.take MatchParams.maxInline⟩ := by
  by_cases hbrace : openBrace ∈ pattern
  · have hstatic : (Router.single pattern).staticRoutes = fun _ => none := by
      rw [Router.single, Router.insert, if_pos hbrace]
    have hroot : (Router.single pattern).root =
        (insertRecursive (pattern.length + 1) (.bare [] [] false) pattern 0).1 := by
      rw [Router.single, Router.insert, if_pos hbrace]
      rfl
    have hhead : ∀ c ∈ pattern.head?, c < 128 := by
      intro c hc
      rw [← Option.some.inj (hslash.symm.trans hc)]
      decide
    have hfound : Finds [] (patternBindings pattern path) (matchRecursive (path.length + 1)
        (insertRecursive (pattern.length + 1) (.bare [] [] false) pattern 0).1 path {}) :=
      match_insert [] [] _ (Nat.lt_succ_self _) (Nat.lt_succ_self _) (Nat.zero_le _)
        (.inl hhead)
    rw [Router.at, hstatic, hroot]
    cases hbound : patternBindings pattern path with
    | none =>
      have hout := hbound ▸ hfound
      simp only [Finds] at hout
      simp [hout]
    | some bound =>
      have hout := hbound ▸ hfound
      simp only [Finds, nil_append] at hout
      simp [hout]
  · have hstatic : (Router.single pattern).staticRoutes =
        Function.update (fun _ => none) pattern (some 0) := by
      rw [Router.single, Router.insert, if_neg hbrace]
    have hroot : (Router.single pattern).root = .bare [] [] false := by
      rw [Router.single, Router.insert, if_neg hbrace]
      rfl
    rw [Router.at, hstatic, hroot, patternBindings_plain hbrace]
    by_cases hpath : path = pattern
    · rw [hpath, Function.update_self, if_pos rfl]
      rfl
    · rw [Function.update_of_ne hpath, if_neg hpath]
      simp [match_bare]

end AstraApi.Routing
