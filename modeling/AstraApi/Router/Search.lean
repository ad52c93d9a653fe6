import AstraApi.Router.Insertion

/-!
# What the search finds

`Router::match_recursive` on a node that represents a table finds the first
word in search order among the stored words that match the path and are not
shadowed, and reports its bindings up to the inline capacity.
-/

namespace AstraApi.Routing

open List
open SlotTable

variable {table : RouteTable} {path : Bytes} {result : MatchParams}

/-! ## Shadowed words, edge by edge -/

theorem boundary_append {word : List Token}
    (hword : Boundary table word) (rest : List Token) :
    Boundary table (word ++ rest) ↔ Boundary (after table word) rest := by
  constructor
  · rintro (hnil | ⟨init, slot, heq, hslot⟩ | hforks)
    · exact .inl (append_eq_nil_iff.mp hnil).2
    · rcases eq_nil_or_concat rest with rfl | ⟨rest, last, rfl⟩
      · exact .inl rfl
      · right; left
        rw [concat_eq_append, ← append_assoc] at heq
        obtain rfl : last = slot := by simpa using (append_inj' heq rfl).2
        exact ⟨rest, last, concat_eq_append, hslot⟩
    · right; right
      rwa [after_after]
  · rintro (rfl | ⟨init, slot, rfl, hslot⟩ | hforks)
    · simpa using hword
    · exact .inr (.inl ⟨word ++ init, slot, by simp, hslot⟩)
    · right; right
      rwa [← after_after]

theorem shadowed_append {word : List Token}
    (hword : Boundary table word) (rest : List Token) :
    Shadowed table (word ++ rest) ↔ Shadowed table word ∨ Shadowed (after table word) rest := by
  constructor
  · rintro ⟨init, b, tail, heq, hb, hboundary⟩
    rcases append_eq_append_iff.mp heq with ⟨middle, rfl, hrest⟩ | ⟨middle, hmiddle, htail⟩
    · exact .inr ⟨middle, b, tail, hrest, hb, (boundary_append hword _).1 hboundary⟩
    · cases middle with
      | nil =>
        right
        refine ⟨[], b, tail, by simpa using htail.symm, hb, .inl rfl⟩
      | cons token middle =>
        obtain ⟨rfl, rfl⟩ : Token.byte b = token ∧ tail = middle ++ rest := by
          simpa using htail
        exact .inl ⟨init, b, middle, hmiddle, hb, hboundary⟩
  · rintro (⟨init, b, tail, rfl, hb, hboundary⟩ | ⟨init, b, tail, rfl, hb, hboundary⟩)
    · exact ⟨init, b, tail ++ rest, by simp, hb, hboundary⟩
    · exact ⟨word ++ init, b, tail, by simp, hb, (boundary_append hword _).2 hboundary⟩

theorem not_shadowed_nil (table : RouteTable) : ¬ Shadowed table [] := by
  rintro ⟨init, b, rest, heq, _⟩
  simp at heq

theorem boundary_slot (table : RouteTable) (name : Bytes) (kind : Bool) :
    Boundary table [slotToken name kind] :=
  .inr (.inl ⟨[], _, rfl, slotToken_isSlot _ _⟩)

theorem not_shadowed_slot (table : RouteTable) (name : Bytes) (kind : Bool) :
    ¬ Shadowed table [slotToken name kind] := by
  rintro ⟨init, b, rest, heq, _⟩
  cases init with
  | nil => exact slotToken_ne_byte _ _ b (by simpa using (List.cons.inj heq).1)
  | cons token init => simp at heq

theorem shadowed_slot_cons (table : RouteTable) (name : Bytes) (kind : Bool)
    (rest : List Token) :
    Shadowed table (slotToken name kind :: rest) ↔
      Shadowed (after table [slotToken name kind]) rest := by
  have happend := shadowed_append (boundary_slot table name kind) rest
  rw [singleton_append] at happend
  rw [happend]
  exact or_iff_right (not_shadowed_slot _ _ _)

theorem StaticEdge.not_forks_inside {b : Byte} {child : Node}
    (hedge : StaticEdge table b child) {count : ℕ} (hpos : 0 < count)
    (hlt : count < child.pfx.length) :
    ¬ Forks (after table (literal (child.pfx.take count))) := by
  obtain ⟨c, text, hnext⟩ := exists_cons_of_length_pos
    (l := child.pfx.drop count) (by rw [length_drop]; omega)
  rintro (hnil | ⟨slot, hslot, hhead⟩ | ⟨x, y, hxy, hx, hy⟩)
  · have hcovers := hedge.covers_drop hpos hnil
    simp [hnext] at hcovers
  · rw [hedge.next_token hpos hnext hhead] at hslot
    simp [isSlot] at hslot
  · have hsame := (hedge.next_token hpos hnext hx).trans (hedge.next_token hpos hnext hy).symm
    exact hxy (by simpa using hsame)

theorem StaticEdge.not_shadowed {b : Byte} {child : Node}
    (hedge : StaticEdge table b child) (hb : b < 128) :
    ¬ Shadowed table (literal child.pfx) := by
  rintro ⟨init, c, rest, heq, hc, hboundary⟩
  obtain ⟨text, htext⟩ := hedge.head
  have hlength : init.length < child.pfx.length := by
    have hsize := congrArg List.length heq
    simp [literal] at hsize
    omega
  have hinit : init = literal (child.pfx.take init.length) := by
    have htake := congrArg (List.take init.length) heq
    simpa [literal] using htake.symm
  rcases hboundary with rfl | ⟨before, slot, hslotEq, hslot⟩ | hforks
  · rw [htext] at heq
    obtain ⟨rfl, _⟩ : b = c ∧ literal text = rest := by simpa using heq
    exact absurd hb (by simpa using hc)
  · have hmem : slot ∈ literal (child.pfx.take init.length) := by
      rw [← hinit, hslotEq]
      simp
    obtain ⟨d, _, rfl⟩ := mem_map.mp hmem
    simp [isSlot] at hslot
  · by_cases hpos : 0 < init.length
    · rw [hinit] at hforks
      exact hedge.not_forks_inside hpos hlength hforks
    · obtain rfl : init = [] := length_eq_zero_iff.mp (by omega)
      rw [htext] at heq
      obtain ⟨rfl, _⟩ : b = c ∧ literal text = rest := by simpa using heq
      exact absurd hb (by simpa using hc)

theorem StaticEdge.shadowed_iff {b : Byte} {child : Node}
    (hedge : StaticEdge table b child) (hb : b < 128) (rest : List Token) :
    Shadowed table (literal child.pfx ++ rest) ↔
      Shadowed (after table (literal child.pfx)) rest := by
  rw [shadowed_append (.inr (.inr hedge.forks))]
  exact or_iff_right (hedge.not_shadowed hb)

/-! ## Search order -/

@[simp]
theorem beats_append (common left right : List Token) :
    beats (common ++ left) (common ++ right) = beats left right := by
  induction common with
  | nil => rfl
  | cons token common ih => simp [beats, ih]

theorem beats_of_rank {a b : Token} (left right : List Token) (hrank : rank a < rank b) :
    beats (a :: left) (b :: right) = true := by
  have hne : a ≠ b := by
    rintro rfl
    omega
  simp [beats, hne, hrank]

/-! ## Outcomes of a search -/

def Live (table : RouteTable) (word : List Token) : Prop :=
  (table word).isSome ∧ ¬ Shadowed table word

/-- `out` is the outcome of searching the candidate words for `path`: the
first matching one with its bindings, or none and the bindings as before. -/
def Settles (table : RouteTable) (cands : List Token → Prop) (path : Bytes)
    (params : List (Bytes × Bytes)) (out : Bool × MatchParams) : Prop :=
  (out.1 = true ∧ ∃ word index bound, cands word ∧ table word = some index ∧
      bindings word path = some bound ∧
      out.2 = ⟨index, (params ++ bound).take MatchParams.maxInline⟩ ∧
      ∀ other, cands other → Matches other path → other = word ∨ beats word other = true) ∨
    (out.1 = false ∧ out.2.params = params ∧ ∀ word, cands word → ¬ Matches word path)

theorem settles_none {cands : List Token → Prop}
    (hnone : ∀ word, cands word → ¬ Matches word path) :
    Settles table cands path result.params (false, result) :=
  .inr ⟨rfl, rfl, hnone⟩

theorem Settles.congr {cands cands' : List Token → Prop}
    {params : List (Bytes × Bytes)} {out : Bool × MatchParams}
    (hsettles : Settles table cands path params out)
    (hcands : ∀ word, Matches word path → (cands word ↔ cands' word)) :
    Settles table cands' path params out := by
  rcases hsettles with ⟨hok, word, index, bound, hcand, hword, hbound, hout, hfirst⟩ |
    ⟨hok, hparams, hnone⟩
  · have hmatch : Matches word path := by simp [Matches, hbound]
    refine .inl ⟨hok, word, index, bound, (hcands _ hmatch).1 hcand, hword, hbound, hout, ?_⟩
    intro other hother hmatchOther
    exact hfirst _ ((hcands _ hmatchOther).2 hother) hmatchOther
  · refine .inr ⟨hok, hparams, fun word hcand hmatch => ?_⟩
    exact hnone _ ((hcands _ hmatch).2 hcand) hmatch

/-- One search after another: the second runs when the first fails. -/
theorem Settles.orElse {first second : List Token → Prop}
    {params : List (Bytes × Bytes)} {out : Bool × MatchParams}
    {next : MatchParams → Bool × MatchParams}
    (hfirst : Settles table first path params out)
    (hsecond : ∀ result, result.params = params →
      Settles table second path result.params (next result))
    (hbeats : ∀ left right, first left → second right → beats left right = true) :
    Settles table (fun word => first word ∨ second word) path params
      (if out.1 then out else next out.2) := by
  rcases hfirst with ⟨hok, word, index, bound, hcand, hword, hbound, hout, hleast⟩ |
    ⟨hok, hparams, hnone⟩
  · rw [if_pos hok]
    refine .inl ⟨hok, word, index, bound, .inl hcand, hword, hbound, hout, ?_⟩
    rintro other (hother | hother) hmatch
    · exact hleast _ hother hmatch
    · exact .inr (hbeats _ _ hcand hother)
  · rw [if_neg (by simp [hok])]
    have hnext := hsecond _ hparams
    rw [hparams] at hnext
    refine hnext.congr ?_
    intro word hmatch
    have hnot : ¬ first word := fun hcand => hnone _ hcand hmatch
    simp [hnot]

theorem take_take_append {α : Type*} (count : ℕ) (left right : List α) :
    (left.take count ++ right).take count = (left ++ right).take count := by
  rw [take_append, take_append, take_take, min_self, length_take]
  congr 2
  omega

/-- A search below an edge is a search among the words through that edge:
`label` is the edge's label and `bound` what it binds. -/
theorem Settles.lift {cands : List Token → Prop} {path' : Bytes}
    {params bound : List (Bytes × Bytes)} {out out' : Bool × MatchParams} {label : List Token}
    (hbelow : Settles (after table label) cands path'
      ((params ++ bound).take MatchParams.maxInline) out)
    (hbind : ∀ rest, bindings (label ++ rest) path = (bindings rest path').map (bound ++ ·))
    (hfound : out.1 = true → out' = out)
    (hfail : out.1 = false → out.2.params = (params ++ bound).take MatchParams.maxInline →
      out'.1 = false ∧ out'.2.params = params) :
    Settles table (fun word => ∃ rest, word = label ++ rest ∧ cands rest) path params out' := by
  rcases hbelow with ⟨hok, word, index, found, hcand, hword, hbound, hout, hleast⟩ |
    ⟨hok, hparams, hnone⟩
  · rw [hfound hok]
    refine .inl ⟨hok, label ++ word, index, bound ++ found, ⟨word, rfl, hcand⟩, hword, ?_, ?_, ?_⟩
    · rw [hbind, hbound]
      rfl
    · rw [hout, take_take_append, append_assoc]
    · rintro other ⟨rest, rfl, hrest⟩ hmatch
      rw [Matches, hbind, Option.isSome_map] at hmatch
      rcases hleast rest hrest hmatch with rfl | hbeats
      · exact .inl rfl
      · exact .inr (by rw [beats_append, hbeats])
  · obtain ⟨hok', hparams'⟩ := hfail hok hparams
    refine .inr ⟨hok', hparams', ?_⟩
    rintro word ⟨rest, rfl, hrest⟩ hmatch
    rw [Matches, hbind, Option.isSome_map] at hmatch
    exact hnone _ hrest hmatch

/-! ## The edges of one node -/

/-- Live words whose first token satisfies `kind`. -/
def LiveHead (table : RouteTable) (kind : Token → Prop) (word : List Token) : Prop :=
  Live table word ∧ ∃ token rest, word = token :: rest ∧ kind token

/-- What the recursive call gives for every shorter path. -/
def SearchesBelow (width fuel : ℕ) : Prop :=
  ∀ {node : Node} {table : RouteTable} {path : Bytes} {result : MatchParams},
    Represents width node table → path.length < fuel →
    (∀ word, (table word).isSome → catchAllLast word = true) →
    result.params.length ≤ MatchParams.maxInline →
      Settles table (Live table) path result.params (matchRecursive fuel node path result)

theorem catchAllLast_append {left right : List Token}
    (hlast : catchAllLast (left ++ right) = true) : catchAllLast right = true := by
  induction left with
  | nil => exact hlast
  | cons token left ih =>
    apply ih
    rw [cons_append] at hlast
    cases htail : left ++ right with
    | nil => rfl
    | cons other tail =>
      rw [htail] at hlast
      cases token with
      | catchAll name => simp [catchAllLast] at hlast
      | byte b | param b => simpa [catchAllLast] using hlast

theorem eq_nil_of_catchAllLast {name : Bytes} {rest : List Token}
    (hlast : catchAllLast (.catchAll name :: rest) = true) : rest = [] := by
  cases rest with
  | nil => rfl
  | cons token rest => simp [catchAllLast] at hlast

theorem head_of_matches_byte {b fb : Byte} {rest : List Token}
    (hmatch : Matches (.byte b :: rest) (fb :: path)) : b = fb := by
  by_contra hne
  simp [Matches, bindings, hne] at hmatch

theorem matches_slot_slash {name : Bytes} (kind : Bool) {rest : List Token} {fb : Byte}
    (hmatch : Matches (slotToken name kind :: rest) (fb :: path)) :
    fb = slash := by
  by_contra hne
  cases kind <;> simp [Matches, slotToken, bindings, hne] at hmatch

section Edges

variable {width fuel : ℕ} {node : Node} {table : RouteTable} {fb : Byte} {rest : Bytes}

theorem settles_static (ih : SearchesBelow width fuel) (hrep : Represents width node table)
    (hfuel : (fb :: rest).length < fuel + 1)
    (hlast : ∀ word, (table word).isSome → catchAllLast word = true)
    (hparams : result.params.length ≤ MatchParams.maxInline) :
    Settles table (LiveHead table fun token => ∃ b, token = .byte b) (fb :: rest) result.params
      (match node.staticChild fb with
      | some child =>
        if child.paramName.isEmpty ∧ !child.pfx.isEmpty ∧
            child.pfx.isPrefixOf (fb :: rest) then
          matchRecursive fuel child ((fb :: rest).drop child.pfx.length) result
        else (false, result)
      | none => (false, result)) := by
  obtain ⟨_, _, _, _, _, noStatic, static, staticBelow, _, _, _⟩ := hrep
  cases hchild : node.staticChild fb with
  | none =>
    refine settles_none ?_
    rintro word ⟨⟨hstored, hshadow⟩, token, tail, rfl, b, rfl⟩ hmatch
    obtain rfl := head_of_matches_byte hmatch
    by_cases hb : b < 128
    · exact noStatic b hb hchild ⟨tail, hstored⟩
    · exact hshadow ⟨[], b, tail, rfl, by simpa using hb, .inl rfl⟩
  | some child =>
    have hedge := static _ _ hchild
    have hfb := (Node.staticChild_eq hchild).1
    obtain ⟨text, htext⟩ := hedge.head
    have hthrough : ∀ word, Matches word (fb :: rest) →
        LiveHead table (fun token => ∃ b, token = .byte b) word →
          ∃ tail, word = literal child.pfx ++ tail := by
      rintro word hmatch ⟨⟨hstored, _⟩, token, tail, rfl, b, rfl⟩
      obtain rfl := head_of_matches_byte hmatch
      obtain ⟨tail', htail'⟩ := hedge.covers _ hstored
      exact ⟨tail', htail'.symm⟩
    by_cases hpfx : child.pfx <+: fb :: rest
    · have hguard : child.paramName.isEmpty ∧ !child.pfx.isEmpty ∧
          child.pfx.isPrefixOf (fb :: rest) := by
        refine ⟨by simp [hedge.paramName], by simp [htext], ?_⟩
        exact isPrefixOf_iff_prefix.mpr hpfx
      simp only [if_pos hguard]
      have hpos : 0 < child.pfx.length := by simp [htext]
      have hbelow := ih (staticBelow _ _ hchild) (length_drop_lt hpos hfuel)
        (fun word hword => catchAllLast_append (hlast _ hword)) hparams
      have hpath : fb :: rest = child.pfx ++ (fb :: rest).drop child.pfx.length := by
        obtain ⟨more, hmore⟩ := hpfx
        rw [← hmore]
        simp
      have hsame : (result.params ++ []).take MatchParams.maxInline = result.params := by
        rw [append_nil, take_of_length_le hparams]
      rw [← hsame] at hbelow
      refine Settles.congr (Settles.lift hbelow ?_ (fun _ => rfl) ?_) ?_
      · intro tail
        conv_lhs => rw [hpath]
        rw [literal, bindings_bytes_append]
        simp
      · intro hok hparams'
        exact ⟨hok, hparams'.trans hsame⟩
      · intro word hmatch
        constructor
        · rintro ⟨tail, rfl, hstored, hshadow⟩
          refine ⟨⟨hstored, ?_⟩, ?_⟩
          · rwa [hedge.shadowed_iff hfb]
          · exact ⟨.byte fb, literal text ++ tail, by simp [htext], fb, rfl⟩
        · intro hlive
          obtain ⟨tail, rfl⟩ := hthrough _ hmatch hlive
          refine ⟨tail, rfl, hlive.1.1, ?_⟩
          rw [← hedge.shadowed_iff hfb]
          exact hlive.1.2
    · have hguard : ¬ (child.paramName.isEmpty ∧ !child.pfx.isEmpty ∧
          child.pfx.isPrefixOf (fb :: rest)) := by
        rintro ⟨_, _, h⟩
        exact hpfx (List.isPrefixOf_iff_prefix.mp h)
      simp only [if_neg hguard]
      refine settles_none ?_
      intro word hlive hmatch
      obtain ⟨tail, rfl⟩ := hthrough _ hmatch hlive
      exact hpfx (isPrefix_of_bindings_bytes hmatch)

theorem add_params (name value : Bytes)
    (hparams : result.params.length ≤ MatchParams.maxInline) :
    (result.add name value).params =
      (result.params ++ [(name, value)]).take MatchParams.maxInline := by
  unfold MatchParams.add
  split
  · rename_i hlt
    rw [take_of_length_le (by simpa using hlt)]
  · rename_i hge
    rw [take_append_of_le_length (by omega), take_of_length_le hparams]

/-- The parameter stage searches the words that start with `/{name}`. -/
theorem settles_param (ih : SearchesBelow width fuel) (hrep : Represents width node table)
    (hfuel : (fb :: rest).length < fuel + 1)
    (hlast : ∀ word, (table word).isSome → catchAllLast word = true)
    (hparams : result.params.length ≤ MatchParams.maxInline) :
    Settles table (LiveHead table fun token => ∃ name, token = .param name) (fb :: rest)
      result.params
      (match if fb = slash then node.child node.paramChild else none with
      | some child =>
        if rest.takeWhile (· != slash) ≠ [] then
          if (matchRecursive fuel child (rest.dropWhile (· != slash))
              (result.add child.paramName (rest.takeWhile (· != slash)))).1 = true then
            (true, (matchRecursive fuel child (rest.dropWhile (· != slash))
              (result.add child.paramName (rest.takeWhile (· != slash)))).2)
          else (false, (matchRecursive fuel child (rest.dropWhile (· != slash))
              (result.add child.paramName
                (rest.takeWhile (· != slash)))).2.restoreCount result.params.length)
        else (false, result)
      | none => (false, result)) := by
  obtain ⟨_, _, _, _, _, _, _, _, noSlot, slot, slotBelow⟩ := hrep
  by_cases hfb : fb = slash
  · subst hfb
    cases hchild : node.child node.paramChild with
    | none =>
      refine settles_none ?_
      rintro word ⟨⟨hstored, _⟩, token, tail, rfl, name, rfl⟩ _
      exact noSlot false hchild _ ⟨tail, hstored⟩
    | some child =>
      have hedge := slot false _ hchild
      by_cases hvalue : rest.takeWhile (· != slash) = []
      · simp only [hvalue, ne_eq, not_true_eq_false, if_false]
        refine settles_none ?_
        rintro word ⟨_, token, tail, rfl, name, rfl⟩ hmatch
        simp [Matches, bindings, hvalue] at hmatch
      · simp only [ne_eq, hvalue, not_false_eq_true, if_true]
        have hshort : (rest.dropWhile (· != slash)).length < fuel := by
          have hle := (dropWhile_suffix (l := rest) (· != slash)).length_le
          simp only [length_cons] at hfuel
          omega
        have hadd := add_params child.paramName (rest.takeWhile (· != slash)) hparams
        have hroom : (result.add child.paramName (rest.takeWhile (· != slash))).params.length ≤
            MatchParams.maxInline := by
          rw [hadd]
          exact length_take_le _ _
        have hbelow := ih (slotBelow false _ hchild) hshort
          (fun word hword => catchAllLast_append (hlast _ hword)) hroom
        rw [hadd] at hbelow
        refine Settles.congr (Settles.lift hbelow ?_ ?_ ?_) ?_
        · intro tail
          simp [slotToken, bindings, hvalue]
        · intro hok
          rw [if_pos hok, ← hok]
        · intro hok hsame
          rw [if_neg (by simp [hok])]
          refine ⟨rfl, ?_⟩
          rw [MatchParams.restoreCount, hsame, take_take, take_append_of_le_length (by omega)]
          exact take_of_length_le (by omega)
        · intro word _
          constructor
          · rintro ⟨tail, rfl, hstored, hshadow⟩
            refine ⟨⟨hstored, ?_⟩, _, tail, rfl, child.paramName, rfl⟩
            rwa [singleton_append, shadowed_slot_cons]
          · rintro ⟨⟨hstored, hshadow⟩, token, tail, rfl, name, rfl⟩
            obtain rfl := hedge.name _ ⟨tail, hstored⟩
            refine ⟨tail, rfl, hstored, ?_⟩
            exact fun h => hshadow ((shadowed_slot_cons _ _ _ _).2 h)
  · rw [if_neg hfb]
    refine settles_none ?_
    rintro word ⟨_, token, tail, rfl, name, rfl⟩ hmatch
    exact hfb (matches_slot_slash false hmatch)

/-- The catch-all stage searches the words that start with `/{name:path}`. -/
theorem settles_catchAll (hrep : Represents width node table)
    (hlast : ∀ word, (table word).isSome → catchAllLast word = true)
    (hparams : result.params.length ≤ MatchParams.maxInline) :
    Settles table (LiveHead table fun token => ∃ name, token = .catchAll name) (fb :: rest)
      result.params
      (match if fb = slash then node.child node.catchAllChild else none with
      | some child => (decide (0 ≤ child.routeIndex),
          { result.add child.paramName rest with routeIndex := child.routeIndex })
      | none => (false, result)) := by
  obtain ⟨_, _, _, _, _, _, _, _, noSlot, slot, slotBelow⟩ := hrep
  by_cases hfb : fb = slash
  · subst hfb
    cases hchild : node.child node.catchAllChild with
    | none =>
      refine settles_none ?_
      rintro word ⟨⟨hstored, _⟩, token, tail, rfl, name, rfl⟩ _
      exact noSlot true hchild _ ⟨tail, hstored⟩
    | some child =>
      have hedge := slot true _ hchild
      obtain ⟨tail, hstored⟩ := hedge.used
      obtain rfl := eq_nil_of_catchAllLast (hlast _ hstored)
      obtain ⟨index, hindex⟩ := Option.isSome_iff_exists.mp hstored
      have hroute : child.routeIndex = index := by
        obtain ⟨_, _, _, _, terminal, _⟩ := slotBelow true _ hchild
        rw [terminal, after_apply, append_nil, hindex]
        rfl
      left
      refine ⟨by simp [hroute], [.catchAll child.paramName], index,
        [(child.paramName, rest)], ⟨⟨hstored, ?_⟩, _, [], rfl, _, rfl⟩, hindex, ?_, ?_, ?_⟩
      · exact not_shadowed_slot _ _ true
      · simp [bindings]
      · show MatchParams.mk _ _ = _
        rw [hroute, add_params _ _ hparams]
      · rintro other ⟨⟨hother, _⟩, token, tail, rfl, name, rfl⟩ _
        obtain rfl := hedge.name _ ⟨tail, hother⟩
        obtain rfl := eq_nil_of_catchAllLast (hlast _ hother)
        exact .inl rfl
  · rw [if_neg hfb]
    refine settles_none ?_
    rintro word ⟨_, token, tail, rfl, name, rfl⟩ hmatch
    exact hfb (matches_slot_slash true hmatch)

end Edges

theorem settles_end {width fuel : ℕ} {node : Node}
    (hrep : Represents width node table)
    (hparams : result.params.length ≤ MatchParams.maxInline) :
    Settles table (Live table) [] result.params (matchRecursive (fuel + 1) node [] result) := by
  obtain ⟨_, _, _, prefixes, terminal, _, _, _, _, _, _⟩ := hrep
  have hempty : ∀ word, Matches word [] → word = [] := by
    intro word hmatch
    cases word with
    | nil => rfl
    | cons token word => simp [Matches] at hmatch
  simp only [matchRecursive]
  cases hstored : table [] with
  | some index =>
    have hroute : node.routeIndex = index := by rw [terminal, hstored]; rfl
    rw [if_pos (by simp [hroute]), hroute]
    refine .inl ⟨rfl, [], index, [], ⟨by simp [hstored], not_shadowed_nil _⟩, hstored, rfl, ?_, ?_⟩
    · rw [append_nil, take_of_length_le hparams]
    · intro other _ hmatch
      exact .inl (hempty _ hmatch)
  | none =>
    have hroute : node.routeIndex = -1 := by rw [terminal, hstored]; rfl
    have hfind : (node.children.find? fun child =>
        child.pfx.isEmpty && decide (0 ≤ child.routeIndex)) = none := by
      rw [find?_eq_none]
      intro child hmem
      simp [prefixes _ hmem]
    rw [if_neg (by simp [hroute]), hfind]
    refine settles_none ?_
    intro word hlive hmatch
    obtain rfl := hempty _ hmatch
    simp [Live, hstored] at hlive

theorem liveHead_beats {kind kind' : Token → Prop}
    (hrank : ∀ a b, kind a → kind' b → rank a < rank b) (left right : List Token)
    (hleft : LiveHead table kind left) (hright : LiveHead table kind' right) :
    beats left right = true := by
  obtain ⟨_, a, left, rfl, ha⟩ := hleft
  obtain ⟨_, b, right, rfl, hb⟩ := hright
  exact beats_of_rank _ _ (hrank a b ha hb)

theorem match_settles {width fuel : ℕ} {node : Node} (hrep : Represents width node table)
    (hfuel : path.length < fuel)
    (hlast : ∀ word, (table word).isSome → catchAllLast word = true)
    (hparams : result.params.length ≤ MatchParams.maxInline) :
    Settles table (Live table) path result.params (matchRecursive fuel node path result) := by
  induction fuel generalizing node table path result with
  | zero => omega
  | succ fuel ih =>
    cases path with
    | nil => exact settles_end hrep hparams
    | cons fb rest =>
      have hbelow : SearchesBelow width fuel := fun h hf hl hp => ih h hf hl hp
      have hcollision : node.hasDispatchCollision = false := by
        obtain ⟨_, _, collision, _⟩ := hrep
        exact collision
      have hstatic := settles_static hbelow hrep hfuel hlast hparams
      have hslots := fun (r : MatchParams) (hr : r.params.length ≤ MatchParams.maxInline) =>
        (settles_param hbelow hrep hfuel hlast hr).orElse
          (fun r' hr' => settles_catchAll hrep hlast (hr'.symm ▸ hr : r'.params.length ≤ _))
          (liveHead_beats (by rintro _ _ ⟨b, rfl⟩ ⟨name, rfl⟩; simp [rank]))
      have hall := hstatic.orElse (fun r hr => hslots r (hr ▸ hparams)) ?_
      · simp only [matchRecursive, hcollision, Bool.false_eq_true, if_false]
        refine Settles.congr hall ?_
        intro word hmatch
        constructor
        · rintro (hlive | hlive | hlive) <;> exact hlive.1
        · intro hlive
          cases word with
          | nil => simp [Matches] at hmatch
          | cons token word =>
            cases token with
            | byte b => exact .inl ⟨hlive, _, word, rfl, b, rfl⟩
            | param name => exact .inr (.inl ⟨hlive, _, word, rfl, name, rfl⟩)
            | catchAll name => exact .inr (.inr ⟨hlive, _, word, rfl, name, rfl⟩)
      · rintro left right hleft (hright | hright)
        · exact liveHead_beats (by rintro _ _ ⟨b, rfl⟩ ⟨name, rfl⟩; simp [rank]) _ _ hleft hright
        · exact liveHead_beats (by rintro _ _ ⟨b, rfl⟩ ⟨name, rfl⟩; simp [rank]) _ _ hleft hright

end AstraApi.Routing
