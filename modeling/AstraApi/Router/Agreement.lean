import AstraApi.Router.CompilePath

/-!
# One route, read by the trie and by the regular expression

The trie takes a `{` behind a `/` for a parameter, any other parameter for literal text,
and gives a parameter the whole segment.  The regular expression knows parameters
anywhere, and its `$` and `.` treat a newline apart.  On patterns whose parameters fill
their segments both readings give the same bindings up to these newlines.
-/

namespace AstraApi.Routing

open Option hiding map_map
open List
open Greedy

variable {c : CodePoint} {pieces : List Piece} {written : Option Convertor}
  {params : List (Bytes × Bytes)} {groups : List (Text × Text)}

/-! ## The reading of the trie -/

/-- A `/{` that starts no parameter of the regular expression. -/
def Stray (left right : Piece) : Prop :=
  left = .text slashChar ∧ right = .text openBraceChar

instance (left right : Piece) : Decidable (Stray left right) :=
  inferInstanceAs (Decidable (_ ∧ _))

def StrayFree (pieces : List Piece) : Prop :=
  pieces.IsChain fun left right => ¬ Stray left right

def isPath (written : Option Convertor) : Bool := written == some .path

/-- The tokens of a pattern without stray braces. -/
def trieTokens : List Piece → List Token
  | [] => []
  | .text c :: .param name written :: rest =>
    if c = slashChar then slotToken name.text.bytes (isPath written) :: trieTokens rest
    else literal (encode c) ++ (literal (paramSource name written).bytes ++ trieTokens rest)
  | .text c :: rest => literal (encode c) ++ trieTokens rest
  | .param name written :: rest => literal (paramSource name written).bytes ++ trieTokens rest

theorem not_mem_bytes (stop : CodePoint) (hstop : stop.val < 128) {text : Text}
    (hencodable : text.Encodable) (h : stop ∉ text) : UInt8.ofNat stop.val ∉ text.bytes := by
  have htake : text.takeWhile (· != stop) = text := by
    rw [takeWhile_eq_self_iff]
    intro c hc
    rw [bne_iff_ne]
    intro heq
    exact h (heq ▸ hc)
  have hbytes := (Text.bytes_takeWhile _ hstop hencodable).1
  rw [htake, takeWhile_eq_self_iff] at hbytes
  intro hmem
  have := hbytes _ hmem
  simp at this

theorem ascii_of_namePart (h : isNamePart c = true) : c.val < 128 := by
  simp only [isNamePart, isNameStart, Bool.or_eq_true, Bool.and_eq_true, decide_eq_true_eq,
    beq_iff_eq] at h
  omega

theorem Identifier.encodable (name : Identifier) : name.text.Encodable :=
  fun c hc => isSurrogate_ascii (ascii_of_namePart (name.parts c hc))

theorem Identifier.not_mem (name : Identifier) (h : isNamePart c = false) :
    c ∉ name.text := by
  intro hc
  rw [name.parts c hc] at h
  cases h

theorem Convertor.parts (convertor : Convertor) :
    ∀ c ∈ convertor.key, isNamePart c = true := by
  have hall : convertor.key.all isNamePart = true := by
    cases convertor <;> decide +kernel
  exact all_eq_true.mp hall

/-- The text of a parameter between its braces. -/
def paramInside (name : Identifier) (written : Option Convertor) : Text :=
  name.text ++ suffix (written.map Convertor.key)

/-- Neither a name nor a convertor has a character that the pattern gives a meaning. -/
theorem not_mem_paramInside (name : Identifier) (written : Option Convertor)
    (hpart : isNamePart c = false) (hcolon : c ≠ colonChar) :
    c ∉ paramInside name written := by
  intro hmem
  cases mem_append.mp hmem with
  | inl hname => exact name.not_mem hpart hname
  | inr hsuffix =>
    cases written with
    | none => cases hsuffix
    | some convertor =>
      cases mem_cons.mp hsuffix with
      | inl heq => exact hcolon heq
      | inr hmem =>
        rw [convertor.parts c hmem] at hpart
        cases hpart

theorem paramInside_encodable (name : Identifier) (written : Option Convertor) :
    (paramInside name written).Encodable := by
  intro c hc
  cases mem_append.mp hc with
  | inl hname => exact name.encodable c hname
  | inr hsuffix =>
    cases written with
    | none => cases hsuffix
    | some convertor =>
      cases mem_cons.mp hsuffix with
      | inl heq =>
        rw [heq]
        decide
      | inr hmem => exact isSurrogate_ascii (ascii_of_namePart (convertor.parts c hmem))

theorem encode_slash : encode slashChar = [slash] := encode_ascii (by decide)

theorem paramSource_bytes (name : Identifier) (written : Option Convertor) :
    (paramSource name written).bytes =
      openBrace :: ((paramInside name written).bytes ++ [closeBrace]) := by
  have hopen : encode openBraceChar = [openBrace] := encode_ascii (by decide)
  have hclose : encode closeBraceChar = [closeBrace] := encode_ascii (by decide)
  rw [paramSource, cons_append, cons_append, ← paramInside, Text.bytes_cons,
    Text.bytes_append, hopen, Text.bytes_cons, hclose]
  rfl

theorem paramSource_encodable (name : Identifier) (written : Option Convertor) :
    (paramSource name written).Encodable := by
  intro c hc
  rw [paramSource, cons_append, cons_append, ← paramInside, mem_cons,
    mem_append, mem_singleton] at hc
  rcases hc with rfl | hmem | rfl
  · decide
  · exact paramInside_encodable _ _ c hmem
  · decide

theorem slash_not_mem_paramSource (name : Identifier) (written : Option Convertor) :
    slashChar ∉ paramSource name written := by
  rw [paramSource, cons_append, cons_append, ← paramInside, mem_cons, mem_append, mem_singleton]
  rintro (hopen | hmem | hclose)
  · revert hopen
    decide
  · exact not_mem_paramInside _ _ rfl (by decide) hmem
  · revert hclose
    decide

/-- The trie reads name and convertor as they were written. -/
theorem paramContent_inside (name : Identifier) (written : Option Convertor) :
    paramContent (paramInside name written).bytes = (name.text.bytes, isPath written) := by
  have hcolon : colon ∉ name.text.bytes :=
    not_mem_bytes colonChar (by decide) name.encodable (name.not_mem rfl)
  rw [paramInside, Text.bytes_append]
  cases written with
  | none =>
    rw [map_none, suffix, Text.bytes_nil, append_nil, paramContent, splitAtByte_none hcolon]
    rfl
  | some convertor =>
    have hsuffix : Text.bytes (suffix (some convertor.key)) = colon :: convertor.key.bytes := by
      rfl
    rw [map_some, hsuffix, paramContent, splitAtByte_append hcolon]
    have hkey : (convertor.key.bytes == ascii "path") = isPath (some convertor) := by
      cases convertor <;> decide +kernel
    exact Prod.ext rfl hkey

theorem patternTokens_slot (name : Identifier) (written : Option Convertor) (rest : Bytes) :
    patternTokens (slash :: ((paramSource name written).bytes ++ rest)) =
      (patternTokens rest).map (slotToken name.text.bytes (isPath written) :: ·) := by
  have hclose : closeBrace ∉ (paramInside name written).bytes :=
    not_mem_bytes closeBraceChar (by decide) (paramInside_encodable _ _)
      (not_mem_paramInside _ _ rfl (by decide))
  have hsource : (paramSource name written).bytes ++ rest =
      openBrace :: ((paramInside name written).bytes ++ closeBrace :: rest) := by
    rw [paramSource_bytes, cons_append, append_assoc]
    rfl
  have hsplit : splitAtByte closeBrace
      ((openBrace :: ((paramInside name written).bytes ++ closeBrace :: rest)).drop 1) =
        some ((paramInside name written).bytes, rest) := splitAtByte_append hclose _
  rw [hsource, patternTokens_param rfl hsplit, paramContent_inside]

theorem slash_not_mem_encode (hc : isSurrogate c = false) (h : c ≠ slashChar) :
    slash ∉ encode c := by
  have hbytes := not_mem_bytes _ (by decide)
    (fun d hd => mem_singleton.mp hd ▸ hc) (fun hmem => h (mem_singleton.mp hmem).symm)
  rwa [Text.bytes_cons, Text.bytes_nil, append_nil] at hbytes

/-- The first byte of a character other than `{` is not that of `{`. -/
theorem head_encode (hc : isSurrogate c = false) (stop : CodePoint)
    (hstop : stop.val < 128) (h : c ≠ stop) {b : Byte} {rest more : Bytes}
    (hencode : encode c ++ more = b :: rest) : b ≠ UInt8.ofNat stop.val := by
  have hbytes := not_mem_bytes _ hstop
    (fun d hd => mem_singleton.mp hd ▸ hc) (fun hmem => h (mem_singleton.mp hmem).symm)
  rw [Text.bytes_cons, Text.bytes_nil, append_nil] at hbytes
  cases hc : encode c with
  | nil => exact absurd hc (encode_ne_nil c)
  | cons d tail =>
    rw [hc, cons_append] at hencode
    rw [← (List.cons.inj hencode).1]
    intro heq
    rw [hc, heq] at hbytes
    exact hbytes mem_cons_self

theorem patternTokens_source (name : Identifier) (written : Option Convertor) (rest : Bytes) :
    patternTokens ((paramSource name written).bytes ++ rest) =
      (patternTokens rest).map (literal (paramSource name written).bytes ++ ·) :=
  patternTokens_literal (not_mem_bytes _ (by decide)
    (paramSource_encodable _ _) (slash_not_mem_paramSource _ _)) _

theorem patternTokens_pieces (hstray : StrayFree pieces)
    (hencodable : (sourceOf pieces).Encodable) :
    patternTokens (sourceOf pieces).bytes = some (trieTokens pieces) := by
  induction pieces using trieTokens.induct with
  | case1 => rfl
  | case2 name written rest ih =>
    have hrest := ih hstray.tail.tail fun c hc => hencodable c (by simp [hc])
    rw [trieTokens, if_pos rfl, sourceOf_cons, sourceOf_cons, Text.bytes_append,
      Text.bytes_append, Piece.source, Piece.source, Text.bytes_cons, encode_slash,
      Text.bytes_nil, append_nil, singleton_append, patternTokens_slot, hrest]
    rfl
  | case3 c name written rest hc ih =>
    have hrest := ih hstray.tail.tail fun c hc => hencodable c (by simp [hc])
    have hsurrogate : isSurrogate c = false := hencodable c (by simp [Piece.source])
    rw [trieTokens, if_neg hc, sourceOf_cons, sourceOf_cons, Text.bytes_append,
      Text.bytes_append, Piece.source, Piece.source, Text.bytes_cons, Text.bytes_nil,
      append_nil, patternTokens_literal (slash_not_mem_encode hsurrogate hc),
      patternTokens_source, hrest]
    rfl
  | case4 c rest hrest ih =>
    have htail := ih hstray.tail fun c hc => hencodable c (by simp [hc])
    have hsurrogate : isSurrogate c = false := hencodable c (by simp [Piece.source])
    rw [trieTokens, sourceOf_cons, Text.bytes_append, Piece.source, Text.bytes_cons,
      Text.bytes_nil, append_nil]
    · by_cases hc : c = slashChar
      · subst hc
        have hparam : ¬ startsParam (slash :: (sourceOf rest).bytes) = true := by
          cases rest with
          | nil => exact Bool.false_ne_true
          | cons piece rest =>
            cases piece with
            | param name written => exact absurd rfl (hrest _ _ _)
            | text d =>
              have hd : d ≠ openBraceChar := fun heq =>
                (isChain_cons_cons.mp hstray).1 ⟨rfl, congrArg _ heq⟩
              have hsurrogate : isSurrogate d = false := hencodable d (by simp [Piece.source])
              rw [sourceOf_cons, Text.bytes_append, Piece.source, Text.bytes_cons,
                Text.bytes_nil, append_nil]
              cases hbytes : encode d ++ (sourceOf rest).bytes with
              | nil => exact Bool.false_ne_true
              | cons b tail =>
                have hb : b ≠ openBrace :=
                  head_encode hsurrogate _ (by decide) hd hbytes
                simp [startsParam, hb]
        rw [encode_slash, singleton_append, patternTokens_byte hparam, htail]
        rfl
      · rw [patternTokens_literal (slash_not_mem_encode hsurrogate hc), htail]
        rfl
    · exact hrest
  | case5 name written rest ih =>
    have hrest := ih hstray.tail fun c hc => hencodable c (by simp [hc])
    rw [trieTokens, sourceOf_cons, Text.bytes_append, Piece.source, patternTokens_source, hrest]
    rfl

/-! ## Patterns of whole segments -/

/-- What follows a parameter that ends with its segment. -/
def startsSegment : List Piece → Bool
  | [] => true
  | piece :: _ => piece == .text slashChar

/-- Every parameter stands between two slashes, or at the end, where alone a path may
stand. -/
def segmented : List Piece → Bool
  | [] => true
  | .text c :: .param _ written :: rest =>
    c == slashChar && (if isPath written then rest.isEmpty else startsSegment rest) &&
      segmented rest
  | .text _ :: rest => segmented rest
  | .param _ _ :: _ => false

/-- The items of the same pattern, as the trie would have them: no character is apart. -/
def Piece.trieItem : Piece → Item CodePoint Text
  | .text c => .char c
  | .param name written =>
    if isPath written then .group name.text (fun _ => true) 0
    else .group name.text (· != slashChar) 1

def segmentMatch (pieces : List Piece) (path : Text) : Option (List (Text × Text)) :=
  run List.isEmpty (pieces.map Piece.trieItem) path

/-- The bindings as the trie reports them. -/
def encodeGroups (groups : List (Text × Text)) : List (Bytes × Bytes) :=
  groups.map (Prod.map Text.bytes Text.bytes)

theorem encodable_of_mem {left right : Text} (hleft : left.Encodable) (h : ∀ c ∈ right, c ∈ left) :
    right.Encodable := fun c hc => hleft c (h c hc)

theorem run_inside (atEnd : Text → Bool) (items : List (Item CodePoint Text)) {path : Text} {k : ℕ}
    (hk : k < (path.takeWhile (· != slashChar)).length) :
    run atEnd (.char slashChar :: items) (path.drop k) = none := by
  have hlength : k < path.length :=
    lt_of_lt_of_le hk (takeWhile_sublist (· != slashChar)).length_le
  have hget : (path.takeWhile (· != slashChar))[k] = path[k] :=
    List.IsPrefix.getElem (List.takeWhile_prefix _) hk
  have hne : slashChar ≠ path[k] := by
    intro heq
    have hmem := mem_takeWhile_imp (getElem_mem hk)
    rw [hget, ← heq] at hmem
    simp at hmem
  rw [drop_eq_getElem_cons hlength, run, if_neg hne]

theorem bindings_encode {d : CodePoint} (hc : isSurrogate c = false)
    (hd : isSurrogate d = false) (tokens : List Token) (path : Bytes) :
    bindings (literal (encode c) ++ tokens) (encode d ++ path) =
      if c = d then bindings tokens path else none := by
  split
  · rename_i heq
    subst heq
    exact bindings_bytes_append _ _ _
  · rename_i hne
    rw [← not_isSome_iff_eq_none]
    intro hsome
    obtain ⟨rest, hrest⟩ := isPrefix_of_bindings_bytes hsome
    exact hne (encode_append_inj hc hd hrest).1

theorem bindings_encode_nil (c : CodePoint) (tokens : List Token) :
    bindings (literal (encode c) ++ tokens) [] = none := by
  cases hc : encode c with
  | nil => exact absurd hc (encode_ne_nil c)
  | cons b rest => rfl

/-- A parameter needs a `/` before it. -/
theorem bindings_slot_encode (hc : isSurrogate c = false) (hne : c ≠ slashChar)
    (name : Bytes) (kind : Bool) (tokens : List Token) (path : Bytes) :
    bindings (slotToken name kind :: tokens) (encode c ++ path) = none := by
  rw [← not_isSome_iff_eq_none]
  intro hsome
  cases hbytes : encode c ++ path with
  | nil => exact encode_ne_nil c (append_eq_nil_iff.mp hbytes).1
  | cons b rest =>
    rw [hbytes] at hsome
    exact head_encode hc _ (by decide) hne hbytes (matches_slot_slash _ hsome)

/-- A parameter takes the segment up to the next slash, for both readings. -/
theorem segmentMatch_param (name : Identifier)
    (hwritten : isPath written = false) {rest : List Piece} (hrest : startsSegment rest = true)
    (path : Text) :
    segmentMatch (.param name written :: rest) path =
      if path.takeWhile (· != slashChar) = [] then none
      else (segmentMatch rest (path.dropWhile (· != slashChar))).map
        ((name.text, path.takeWhile (· != slashChar)) :: ·) := by
  have hinside : ∀ k < (path.takeWhile (· != slashChar)).length,
      run List.isEmpty (rest.map Piece.trieItem) (path.drop k) = none := by
    intro k hk
    cases rest with
    | nil =>
      have hlength : k < path.length :=
        lt_of_lt_of_le hk (takeWhile_sublist (· != slashChar)).length_le
      rw [map_nil, run, if_neg]
      rw [List.isEmpty_iff, drop_eq_nil_iff]
      exact not_le.mpr hlength
    | cons piece rest =>
      rw [eq_of_beq hrest]
      exact run_inside _ _ hk
  rw [segmentMatch, map_cons, Piece.trieItem, hwritten, if_neg Bool.false_ne_true,
    run_group _ hinside]
  by_cases hnil : path.takeWhile (· != slashChar) = []
  · rw [if_pos hnil, hnil, if_neg (by decide)]
  · rw [if_neg hnil, if_pos (Nat.succ_le_of_lt (length_pos_iff.mpr hnil))]
    rfl

theorem segmentMatch_path (name : Identifier)
    (hwritten : isPath written = true) (path : Text) :
    segmentMatch [.param name written] path = some [(name.text, path)] := by
  have hall : path.takeWhile (fun _ => true) = path :=
    takeWhile_eq_self_iff.mpr fun _ _ => rfl
  have hnone : path.dropWhile (fun _ => true) = [] :=
    dropWhile_eq_nil_iff.mpr fun _ _ => rfl
  have hrest : run List.isEmpty (([] : List Piece).map Piece.trieItem)
      (path.dropWhile fun _ => true) = some [] := by
    rw [hnone]
    rfl
  rw [segmentMatch, map_cons, Piece.trieItem, if_pos hwritten,
    run_group_full _ (Nat.zero_le _) hrest, hall]

theorem segmentMatch_text (c : CodePoint) (rest : List Piece) (path : Text) :
    segmentMatch (.text c :: rest) path =
      match path with
      | [] => none
      | d :: path => if c = d then segmentMatch rest path else none := by
  cases path <;> rfl

theorem bytes_eq_nil_iff {text : Text} : text.bytes = [] ↔ text = [] := by
  cases text with
  | nil => exact iff_of_true rfl rfl
  | cons c rest =>
    apply iff_of_false
    · intro hnil
      exact encode_ne_nil c (append_eq_nil_iff.mp hnil).1
    · exact cons_ne_nil c _

theorem bindings_segmented (hsegmented : segmented pieces = true)
    (hpieces : (sourceOf pieces).Encodable) {path : Text} (hpath : path.Encodable) :
    bindings (trieTokens pieces) path.bytes = (segmentMatch pieces path).map encodeGroups := by
  induction pieces using segmented.induct generalizing path with
  | case1 =>
    cases path with
    | nil => rfl
    | cons d path =>
      rw [trieTokens, Text.bytes_cons]
      cases hbytes : encode d ++ Text.bytes path with
      | nil => exact absurd (append_eq_nil_iff.mp hbytes).1 (encode_ne_nil d)
      | cons b rest => rfl
  | case2 c name written rest ih =>
    rw [segmented, Bool.and_eq_true, Bool.and_eq_true, beq_iff_eq] at hsegmented
    obtain ⟨⟨rfl, hend⟩, hsegmented⟩ := hsegmented
    rw [trieTokens, if_pos rfl, segmentMatch_text]
    cases path with
    | nil => exact bindings_cons_nil _ _
    | cons d path =>
      have hd : isSurrogate d = false := hpath d mem_cons_self
      have htail : Text.Encodable path := fun c hc => hpath c (mem_cons_of_mem d hc)
      dsimp only
      by_cases hslash : slashChar = d
      · subst hslash
        rw [if_pos rfl, Text.bytes_cons, encode_slash, singleton_append]
        cases hwritten : isPath written with
        | true =>
          rw [if_pos hwritten, List.isEmpty_iff] at hend
          subst hend
          rw [segmentMatch_path _ hwritten]
          rfl
        | false =>
          rw [hwritten, if_neg Bool.false_ne_true] at hend
          obtain ⟨htake, hdrop⟩ : (Text.bytes path).takeWhile (· != slash) =
                Text.bytes (path.takeWhile (· != slashChar)) ∧
              (Text.bytes path).dropWhile (· != slash) =
                Text.bytes (path.dropWhile (· != slashChar)) :=
            Text.bytes_takeWhile slashChar (by decide) htail
          have hrest := ih hsegmented (fun c hc => hpieces c (by simp [hc]))
            (encodable_of_mem htail fun c => (dropWhile_sublist (· != slashChar)).mem)
          rw [segmentMatch_param _ hwritten hend]
          change (if slash = slash ∧ _ then _ else none) = _
          rw [htake, hdrop, hrest]
          by_cases hnil : path.takeWhile (· != slashChar) = []
          · rw [if_neg fun h => h.2 (bytes_eq_nil_iff.mpr hnil), if_pos hnil]
            rfl
          · rw [if_pos ⟨rfl, mt bytes_eq_nil_iff.mp hnil⟩, if_neg hnil, Option.map_map,
              Option.map_map]
            rfl
      · rw [if_neg hslash]
        exact bindings_slot_encode hd (Ne.symm hslash) _ _ _ _
  | case3 c rest hrest ih =>
    rw [segmented] at hsegmented
    · have hc : isSurrogate c = false := hpieces c (by simp [Piece.source])
      rw [trieTokens, segmentMatch_text]
      · cases path with
        | nil => exact bindings_encode_nil c _
        | cons d path =>
          have hd : isSurrogate d = false := hpath d mem_cons_self
          have htail : Text.Encodable path := fun c hc => hpath c (mem_cons_of_mem d hc)
          rw [Text.bytes_cons, bindings_encode hc hd]
          dsimp only
          split
          · exact ih hsegmented (fun c hc => hpieces c (by simp [hc])) htail
          · rfl
      · exact hrest
    · exact hrest
  | case4 name written rest => cases hsegmented

/-! ## Newlines -/

/-- The pattern ends before a newline that ends the path, or its last parameter is a path
with a newline in it. -/
def NewlineLeft : List Piece → Text → Prop
  | [], path => path = [newline]
  | .text _ :: _, [] => False
  | .text c :: rest, d :: path => c = d ∧ NewlineLeft rest path
  | .param _ written :: rest, path =>
    if isPath written then newline ∈ path
    else path.takeWhile (· != slashChar) ≠ [] ∧
      NewlineLeft rest (path.dropWhile (· != slashChar))

theorem regexMatch_text (c : CodePoint) (rest : List Piece) (path : Text) :
    regexMatch (.text c :: rest) path =
      match path with
      | [] => none
      | d :: path => if c = d then regexMatch rest path else none := by
  cases path <;> rfl

theorem item_param (name : Identifier) (written : Option Convertor) :
    (Piece.param name written).item =
      if isPath written then .group name.text (· != newline) 0
      else .group name.text (· != slashChar) 1 := by
  cases written with
  | none => rfl
  | some convertor => cases convertor <;> rfl

/-- The regular expression finds no end where the trie finds none. -/
theorem not_atDollar {path : Text} {k : ℕ} (hk : k < (path.takeWhile (· != slashChar)).length)
    (hrest : path.dropWhile (· != slashChar) ≠ []) : atDollar (path.drop k) = false := by
  have hlength : (path.takeWhile (· != slashChar)).length +
      (path.dropWhile (· != slashChar)).length = path.length := by
    rw [← length_append, takeWhile_append_dropWhile]
  have hpos := length_pos_iff.mpr hrest
  have hdrop : (path.drop k).length = path.length - k := length_drop
  cases hpath : path.drop k with
  | nil =>
    rw [hpath, length_nil] at hdrop
    omega
  | cons c rest =>
    cases rest with
    | nil =>
      rw [hpath, length_singleton] at hdrop
      omega
    | cons d rest => simp [atDollar]

theorem regexMatch_param (name : Identifier)
    (hwritten : isPath written = false) {rest : List Piece} (hrest : startsSegment rest = true)
    (path : Text) :
    regexMatch (.param name written :: rest) path =
      if path.takeWhile (· != slashChar) = [] then none
      else (regexMatch rest (path.dropWhile (· != slashChar))).map
        ((name.text, path.takeWhile (· != slashChar)) :: ·) := by
  rw [regexMatch, map_cons, item_param, hwritten, if_neg Bool.false_ne_true]
  by_cases hend : rest = [] ∧ path.dropWhile (· != slashChar) = []
  · obtain ⟨rfl, hdrop⟩ := hend
    have hend : run atDollar (([] : List Piece).map Piece.item)
        (path.dropWhile (· != slashChar)) = some [] := by
      rw [hdrop]
      rfl
    by_cases hnil : path.takeWhile (· != slashChar) = []
    · have hpath : path = [] := by
        rw [← takeWhile_append_dropWhile (p := (· != slashChar)) (l := path), hnil, hdrop]
        rfl
      rw [if_pos hnil, hpath]
      rfl
    · rw [if_neg hnil, run_group_full _ (Nat.succ_le_of_lt (length_pos_iff.mpr hnil))
        hend, regexMatch, hend]
      rfl
  · have hinside : ∀ k < (path.takeWhile (· != slashChar)).length,
        run atDollar (rest.map Piece.item) (path.drop k) = none := by
      intro k hk
      cases rest with
      | nil =>
        rw [map_nil, run, not_atDollar hk fun hdrop => hend ⟨rfl, hdrop⟩,
          if_neg Bool.false_ne_true]
      | cons piece rest =>
        rw [eq_of_beq hrest]
        exact run_inside _ _ hk
    rw [run_group _ hinside]
    by_cases hnil : path.takeWhile (· != slashChar) = []
    · rw [if_pos hnil, hnil, if_neg (by decide)]
    · rw [if_neg hnil, if_pos (Nat.succ_le_of_lt (length_pos_iff.mpr hnil))]
      rfl

theorem regexMatch_path_iff (name : Identifier)
    (hwritten : isPath written = true) (path : Text) :
    regexMatch [.param name written] path = some [(name.text, path)] ↔ newline ∉ path := by
  rw [regexMatch, map_cons, item_param, if_pos hwritten]
  constructor
  · intro h
    obtain ⟨k, tail, hk, -, hbound⟩ := longest_some h
    have hvalue : path = path.take k := by
      have := (List.cons.inj hbound).1
      exact (Prod.mk.inj this).2
    have haccepts := ((le_takeWhile_iff _ _ k).mp hk).2
    rw [← hvalue] at haccepts
    intro hmem
    have := haccepts _ hmem
    simp at this
  · intro h
    have hall : ∀ c ∈ path, (c != newline) = true := by
      intro c hc
      rw [bne_iff_ne]
      intro heq
      exact h (heq ▸ hc)
    have hend : run atDollar (([] : List Piece).map Piece.item)
        (path.dropWhile (· != newline)) = some [] := by
      rw [dropWhile_eq_nil_iff.mpr hall]
      rfl
    rw [run_group_full _ (Nat.zero_le _) hend, takeWhile_eq_self_iff.mpr hall]

/-- On patterns of whole segments the readings differ by newlines only. -/
theorem regexMatch_eq_iff (hsegmented : segmented pieces = true)
    (path : Text) :
    regexMatch pieces path = segmentMatch pieces path ↔ ¬ NewlineLeft pieces path := by
  induction pieces using segmented.induct generalizing path with
  | case1 =>
    rw [NewlineLeft, regexMatch, segmentMatch, map_nil, map_nil, run, run]
    cases path with
    | nil => exact iff_of_true rfl (cons_ne_nil _ _).symm
    | cons c path =>
      rw [atDollar, isEmpty_cons, if_neg Bool.false_ne_true]
      by_cases hpath : c :: path = [newline]
      · rw [if_pos (by rw [hpath]; rfl)]
        exact iff_of_false (some_ne_none _) (not_not.mpr hpath)
      · rw [if_neg (by simpa using hpath)]
        exact iff_of_true rfl hpath
  | case2 c name written rest ih =>
    rw [segmented, Bool.and_eq_true, Bool.and_eq_true, beq_iff_eq] at hsegmented
    obtain ⟨⟨rfl, hend⟩, hsegmented⟩ := hsegmented
    cases path with
    | nil => exact iff_of_true rfl id
    | cons d path =>
      rw [NewlineLeft, segmentMatch_text, regexMatch_text]
      dsimp only
      by_cases hslash : slashChar = d
      · rw [if_pos hslash, if_pos hslash, and_iff_right hslash, NewlineLeft]
        cases hwritten : isPath written with
        | true =>
          rw [if_pos hwritten, List.isEmpty_iff] at hend
          subst hend
          rw [segmentMatch_path _ hwritten, if_pos rfl]
          exact regexMatch_path_iff _ hwritten _
        | false =>
          rw [hwritten, if_neg Bool.false_ne_true] at hend
          rw [segmentMatch_param _ hwritten hend, regexMatch_param _ hwritten hend,
            if_neg Bool.false_ne_true]
          by_cases hnil : path.takeWhile (· != slashChar) = []
          · rw [if_pos hnil, if_pos hnil]
            exact iff_of_true rfl fun h => h.1 hnil
          · rw [if_neg hnil, if_neg hnil, and_iff_right hnil, ← ih hsegmented]
            have hinj := map_injective (f := ((name.text,
              path.takeWhile (· != slashChar)) :: ·)) cons_injective
            exact hinj.eq_iff
      · rw [if_neg hslash, if_neg hslash]
        exact iff_of_true rfl fun h => hslash h.1
  | case3 c rest hrest ih =>
    rw [segmented] at hsegmented
    · cases path with
      | nil => exact iff_of_true rfl id
      | cons d path =>
        rw [NewlineLeft, segmentMatch_text, regexMatch_text]
        dsimp only
        by_cases hc : c = d
        · rw [if_pos hc, if_pos hc, and_iff_right hc]
          exact ih hsegmented _
        · rw [if_neg hc, if_neg hc]
          exact iff_of_true rfl fun h => hc h.1
    · exact hrest
  | case4 name written rest => cases hsegmented

/-! ## Maps of bindings -/

/-- The dictionary that is filled with the bindings in their order. -/
def dictOf (params : List (Bytes × Bytes)) (name : Bytes) : Option Bytes :=
  (params.reverse.find? fun entry => entry.1 == name).map Prod.snd

theorem mem_of_dictOf {name value : Bytes}
    (h : dictOf params name = some value) : (name, value) ∈ params := by
  obtain ⟨entry, hfind, rfl⟩ := map_eq_some_iff.mp h
  have hname : entry.1 = name := eq_of_beq (find?_some (p := fun entry : Bytes × Bytes => entry.1 == name) hfind)
  rw [← hname]
  exact mem_reverse.mp (mem_of_find?_eq_some hfind)

theorem dictOf_isSome {name : Bytes}
    (h : name ∈ params.map Prod.fst) : (dictOf params name).isSome := by
  obtain ⟨entry, hmem, rfl⟩ := mem_map.mp h
  rw [dictOf, isSome_map, find?_isSome]
  exact ⟨entry, mem_reverse.mpr hmem, beq_self_eq_true _⟩

/-- Where no name occurs twice, the bindings can be read back from the dictionary. -/
theorem dictOf_of_mem (hnodup : (params.map Prod.fst).Nodup)
    {entry : Bytes × Bytes} (h : entry ∈ params) : dictOf params entry.1 = some entry.2 := by
  obtain ⟨value, hvalue⟩ := isSome_iff_exists.mp (dictOf_isSome (mem_map_of_mem (f := Prod.fst) h))
  have hsame := inj_on_of_nodup_map hnodup (mem_of_dictOf hvalue) h rfl
  rw [hvalue, ← hsame]

theorem eq_of_names_eq {ν β : Type*} {left right : List (ν × β)}
    (hnames : left.map Prod.fst = right.map Prod.fst) (hnodup : (left.map Prod.fst).Nodup)
    (h : ∀ entry ∈ left, entry ∈ right) : left = right := by
  induction left generalizing right with
  | nil => exact (map_eq_nil_iff.mp hnames.symm).symm
  | cons entry left ih =>
    cases right with
    | nil => cases hnames
    | cons other right =>
      obtain ⟨hname, hrest⟩ := List.cons.inj hnames
      obtain ⟨hnew, hnodup⟩ := nodup_cons.mp hnodup
      have hentry : entry = other := by
        cases mem_cons.mp (h entry mem_cons_self) with
        | inl heq => exact heq
        | inr hmem =>
          rw [hrest] at hnew
          exact absurd (mem_map_of_mem hmem) hnew
      rw [hentry, ih hrest hnodup]
      intro next hnext
      cases mem_cons.mp (h next (mem_cons_of_mem entry hnext)) with
      | inl heq =>
        rw [heq, ← hentry] at hnext
        exact absurd (mem_map_of_mem hnext) hnew
      | inr hmem => exact hmem

/-! ## Counting parameters -/

theorem paramCount_literal (text : Bytes) (tokens : List Token) :
    paramCount (literal text ++ tokens) = paramCount tokens := by
  have hnone : (literal text).countP isSlot = 0 := by
    rw [literal, countP_map]
    exact countP_eq_zero.mpr fun b _ => Bool.false_ne_true
  rw [paramCount, countP_append, hnone, Nat.zero_add]
  rfl

theorem paramCount_slot (name : Bytes) (kind : Bool) (tokens : List Token) :
    paramCount (slotToken name kind :: tokens) = paramCount tokens + 1 :=
  countP_cons_of_pos (slotToken_isSlot _ _)

theorem paramNames_text (c : CodePoint) (rest : List Piece) :
    paramNames (.text c :: rest) = paramNames rest := rfl

theorem paramNames_param (name : Identifier) (written : Option Convertor) (rest : List Piece) :
    paramNames (.param name written :: rest) = name.text :: paramNames rest := rfl

/-- The trie has at most the parameters of the regular expression. -/
theorem paramCount_le (pieces : List Piece) :
    paramCount (trieTokens pieces) ≤ (paramNames pieces).length := by
  induction pieces using trieTokens.induct with
  | case1 => exact le_rfl
  | case2 name written rest ih =>
    rw [trieTokens, if_pos rfl, paramCount_slot]
    exact Nat.succ_le_succ ih
  | case3 c name written rest hc ih =>
    rw [trieTokens, if_neg hc, paramCount_literal, paramCount_literal]
    exact Nat.le_succ_of_le ih
  | case4 c rest hrest ih =>
    rw [trieTokens, paramCount_literal]
    · exact ih
    · exact hrest
  | case5 name written rest ih =>
    rw [trieTokens, paramCount_literal]
    exact Nat.le_succ_of_le ih

theorem trieTokens_text (hc : c ≠ slashChar) (rest : List Piece) :
    ∃ tokens, trieTokens (.text c :: rest) = literal (encode c) ++ tokens := by
  cases rest with
  | nil => exact ⟨_, rfl⟩
  | cons piece rest =>
    cases piece with
    | text d => exact ⟨_, rfl⟩
    | param name written =>
      rw [trieTokens, if_neg hc]
      exact ⟨_, rfl⟩

theorem eq_nil_of_trieTokens (h : trieTokens pieces = []) : pieces = [] := by
  have hliteral {text : Bytes} (tokens : List _) (htext : text ≠ []) :
      literal text ++ tokens ≠ [] := by
    intro hnil
    exact htext (map_eq_nil_iff.mp (append_eq_nil_iff.mp hnil).1)
  cases pieces with
  | nil => rfl
  | cons piece rest =>
    cases piece with
    | param name written =>
      exact absurd h (hliteral _ (cons_ne_nil _ _))
    | text c =>
      by_cases hc : c = slashChar
      · subst hc
        cases rest with
        | nil => exact absurd h (hliteral _ (encode_ne_nil _))
        | cons piece rest =>
          cases piece with
          | text d => exact absurd h (hliteral _ (encode_ne_nil _))
          | param name written =>
            cases h
      · obtain ⟨tokens, htokens⟩ := trieTokens_text hc _
        rw [htokens] at h
        exact absurd h (hliteral _ (encode_ne_nil _))

/-- Behind a parameter the trie goes on at a slash. -/
theorem startsSegment_of_bindings {rest : List Piece} (hrest : (sourceOf rest).Encodable)
    (hcount : (paramNames rest).length ≤ paramCount (trieTokens rest)) {path : Bytes}
    (hmatch : (bindings (trieTokens rest) (path.dropWhile (· != slash))).isSome) :
    startsSegment rest = true := by
  cases rest with
  | nil => rfl
  | cons piece rest =>
    cases piece with
    | param name written =>
      rw [trieTokens, paramCount_literal, paramNames_param, length_cons] at hcount
      have := paramCount_le rest
      omega
    | text d =>
      by_cases hd : d = slashChar
      · rw [startsSegment, hd]
        exact beq_self_eq_true _
      · have hsurrogate : isSurrogate d = false := hrest d (by simp [Piece.source])
        obtain ⟨tokens, htokens⟩ := trieTokens_text hd _
        rw [htokens] at hmatch
        cases hpath : path.dropWhile (· != slash) with
        | nil =>
          rw [hpath, bindings_encode_nil] at hmatch
          cases hmatch
        | cons b tail =>
          have hhead := head?_dropWhile_not (· != slash) path
          rw [hpath] at hhead hmatch
          have hb : b = slash := by simpa using hhead
          have hprefix := isPrefix_of_bindings_bytes hmatch
          cases hencode : encode d with
          | nil => exact absurd hencode (encode_ne_nil d)
          | cons c text =>
            rw [hencode] at hprefix
            have hc := (cons_prefix_cons.mp hprefix).1
            apply absurd (slash_not_mem_encode hsurrogate hd)
            rw [hencode, hc, hb]
            exact not_not.mpr mem_cons_self

/-- A pattern whose parameters the trie all knows is one of whole segments, if it matches
anything. -/
theorem segmented_of_bindings (hpieces : (sourceOf pieces).Encodable)
    (hcount : (paramNames pieces).length ≤ paramCount (trieTokens pieces)) {path : Bytes}
    (hmatch : (bindings (trieTokens pieces) path).isSome) : segmented pieces = true := by
  induction pieces using trieTokens.induct generalizing path with
  | case1 => rfl
  | case2 name written rest ih =>
    rw [trieTokens, if_pos rfl] at hmatch hcount
    rw [paramCount_slot, paramNames_text, paramNames_param, length_cons] at hcount
    have hrest : (sourceOf rest).Encodable := fun c hc => hpieces c (by simp [hc])
    cases path with
    | nil => cases hmatch
    | cons c path =>
      cases hwritten : isPath written with
      | true =>
        rw [hwritten] at hmatch
        have hnil : trieTokens rest = [] := by
          by_contra hne
          rw [slotToken, if_pos rfl, bindings, if_neg fun h => hne h.2] at hmatch
          cases hmatch
        rw [eq_nil_of_trieTokens hnil, segmented, hwritten]
        rfl
      | false =>
        rw [hwritten] at hmatch
        have hbelow : (bindings (trieTokens rest) (path.dropWhile (· != slash))).isSome := by
          rw [slotToken, if_neg Bool.false_ne_true, bindings] at hmatch
          split at hmatch
          · rwa [isSome_map] at hmatch
          · cases hmatch
        have hcount := Nat.le_of_succ_le_succ hcount
        rw [segmented, hwritten, if_neg Bool.false_ne_true,
          startsSegment_of_bindings hrest hcount hbelow, ih hrest hcount hbelow]
        rfl
  | case3 c name written rest hc ih =>
    rw [trieTokens, if_neg hc, paramCount_literal, paramCount_literal, paramNames_text,
      paramNames_param, length_cons] at hcount
    have := paramCount_le rest
    omega
  | case4 c rest hrest ih =>
    rw [trieTokens] at hmatch hcount
    · rw [paramCount_literal] at hcount
      obtain ⟨path, rfl⟩ := isPrefix_of_bindings_bytes hmatch
      rw [literal, bindings_bytes_append] at hmatch
      have hsegmented := ih (fun d hd => hpieces d (by simp [hd])) hcount hmatch
      rwa [segmented]
      exact hrest
    · exact hrest
    · exact hrest
  | case5 name written rest ih =>
    rw [trieTokens, paramCount_literal, paramNames_param, length_cons] at hcount
    have := paramCount_le rest
    omega

/-! ## Agreement -/

/-- Both or none match, and the bindings are the same map. -/
def SameAnswer (found : Option (List (Text × Text))) (result : Option MatchParams) : Prop :=
  match found, result with
  | some groups, some result =>
    ∀ name, dictOf result.params name = dictOf (encodeGroups groups) name
  | none, none => True
  | _, _ => False

/-- The pattern stands for whole segments, no more of them than a match can report, and
no newline is left over. -/
structure WholeSegments (pieces : List Piece) (path : Text) : Prop where
  stray : StrayFree pieces
  segmented : segmented pieces = true
  params : (paramNames pieces).length ≤ MatchParams.maxInline
  newline : ¬ NewlineLeft pieces path

/-- The path fits the pattern neither as a regular expression nor as tokens. -/
def Unread (pieces : List Piece) (path : Text) (pattern bytes : Bytes) : Prop :=
  ¬ Fits atDollar (pieces.map Piece.item) path ∧ ¬ PatternMatches pattern bytes

theorem names_trieItem (pieces : List Piece) :
    names (pieces.map Piece.trieItem) = paramNames pieces := by
  induction pieces with
  | nil => rfl
  | cons piece pieces ih =>
    cases piece with
    | text c => exact ih
    | param name written =>
      rw [map_cons, Piece.trieItem, paramNames_param, ← ih]
      split <;> rfl

theorem paramNames_encodable (pieces : List Piece) :
    ∀ name ∈ paramNames pieces, Text.Encodable name := by
  intro name hname
  obtain ⟨piece, -, hpiece⟩ := mem_filterMap.mp hname
  cases piece with
  | text c => cases hpiece
  | param name written =>
    rw [← Option.some.inj hpiece]
    exact name.encodable

theorem encodeGroups_names (groups : List (Text × Text)) :
    (encodeGroups groups).map Prod.fst = (groups.map Prod.fst).map Text.bytes := by
  rw [encodeGroups, map_map, map_map]
  rfl

/-- Distinct names have distinct bytes. -/
theorem nodup_encodeGroups (hnodup : (paramNames pieces).Nodup)
    (hnames : groups.map Prod.fst = paramNames pieces) :
    ((encodeGroups groups).map Prod.fst).Nodup := by
  rw [encodeGroups_names, hnames]
  apply hnodup.map_on
  intro left hleft right hright
  exact Text.bytes_inj (paramNames_encodable _ _ hleft) (paramNames_encodable _ _ hright)

theorem sameAnswer_self (groups : Option (List (Text × Text))) {index : ℤ} {count : ℕ}
    (hcount : ∀ found ∈ groups, found.length ≤ count) :
    SameAnswer groups ((groups.map encodeGroups).map fun bound => ⟨index, bound.take count⟩) := by
  cases groups with
  | none => trivial
  | some found =>
    intro name
    have hlength : (encodeGroups found).length ≤ count := by
      rw [encodeGroups, length_map]
      exact hcount _ rfl
    exact congrArg (dictOf · _) (take_of_length_le hlength)

/-- Equal maps have equal bindings. -/
theorem eq_of_sameAnswer (hnodup : (paramNames pieces).Nodup) {path : Text}
    (hpath : path.Encodable) {bound : List (Text × Text)}
    (hgroups : regexMatch pieces path = some groups)
    (hbound : segmentMatch pieces path = some bound)
    (h : ∀ name, dictOf (encodeGroups bound) name = dictOf (encodeGroups groups) name) :
    bound = groups := by
  have hnames : groups.map Prod.fst = paramNames pieces :=
    (run_names _ hgroups).trans (names_item _)
  have hboundNames : bound.map Prod.fst = paramNames pieces :=
    (run_names _ hbound).trans (names_trieItem _)
  have hencoded : encodeGroups bound = encodeGroups groups := by
    apply eq_of_names_eq
    · rw [encodeGroups_names, encodeGroups_names, hnames, hboundNames]
    · exact nodup_encodeGroups hnodup hboundNames
    · intro entry hentry
      apply mem_of_dictOf
      rw [← h]
      exact dictOf_of_mem (nodup_encodeGroups hnodup hboundNames) hentry
  have hencodable {found : List _} (hfound : found.map Prod.fst = paramNames pieces)
      (hvalues : ∀ entry ∈ found, ∀ c ∈ entry.2, c ∈ path) :
      ∀ entry ∈ found, Text.Encodable entry.1 ∧ Text.Encodable entry.2 := by
    intro entry hentry
    constructor
    · apply paramNames_encodable _
      rw [← hfound]
      exact mem_map_of_mem hentry
    · exact encodable_of_mem hpath (hvalues _ hentry)
  have hleft := hencodable hboundNames (run_values _ hbound)
  have hright := hencodable hnames (run_values _ hgroups)
  clear hgroups hbound h hnames hboundNames hencodable
  induction bound generalizing groups with
  | nil => exact (map_eq_nil_iff.mp hencoded.symm).symm
  | cons entry bound ih =>
    cases groups with
    | nil => cases hencoded
    | cons other groups =>
      obtain ⟨hentry, hrest⟩ := List.cons.inj hencoded
      obtain ⟨hname, hvalue⟩ := Prod.mk.inj hentry
      have hl := hleft _ mem_cons_self
      have hr := hright _ mem_cons_self
      rw [Prod.ext (Text.bytes_inj hl.1 hr.1 hname) (Text.bytes_inj hl.2 hr.2 hvalue),
        ih hrest (fun next hnext => hleft _ (mem_cons_of_mem _ hnext))
          fun next hnext => hright _ (mem_cons_of_mem _ hnext)]

/-- A map with the names of all parameters has as many bindings. -/
theorem length_le_of_sameAnswer (hnodup : (paramNames pieces).Nodup)
    {path : Text} (hgroups : regexMatch pieces path = some groups)
    (h : ∀ name, dictOf params name = dictOf (encodeGroups groups) name) :
    (paramNames pieces).length ≤ params.length := by
  have hnames : groups.map Prod.fst = paramNames pieces :=
    (run_names _ hgroups).trans (names_item _)
  have hsubset : (encodeGroups groups).map Prod.fst ⊆ params.map Prod.fst := by
    intro name hname
    have hsome := dictOf_isSome hname
    rw [← h] at hsome
    obtain ⟨value, hvalue⟩ := isSome_iff_exists.mp hsome
    exact mem_map_of_mem (f := Prod.fst) (mem_of_dictOf hvalue)
  have hlength := ((nodup_encodeGroups hnodup hnames).subperm hsubset).length_le
  rwa [encodeGroups_names, hnames, length_map, length_map] at hlength

theorem wholeSegments_of_sameAnswer (hstray : StrayFree pieces)
    (hpieces : (sourceOf pieces).Encodable) (hnodup : (paramNames pieces).Nodup) {path : Text}
    (hencodable : path.Encodable)
    (hgroups : regexMatch pieces path = some groups) {bound : List (Bytes × Bytes)}
    (hbound : bindings (trieTokens pieces) path.bytes = some bound)
    (hmaps : ∀ name, dictOf (bound.take MatchParams.maxInline) name =
      dictOf (encodeGroups groups) name) : WholeSegments pieces path := by
  have hlength := length_le_of_sameAnswer hnodup hgroups hmaps
  rw [length_take, le_min_iff, length_of_bindings hbound] at hlength
  have hsegmented := segmented_of_bindings hpieces hlength.2 (isSome_of_eq_some hbound)
  have hsegments := bindings_segmented hsegmented hpieces hencodable
  rw [hbound] at hsegments
  obtain ⟨found, hfound, rfl⟩ := map_eq_some_iff.mp hsegments.symm
  have hall : (encodeGroups found).take MatchParams.maxInline = encodeGroups found := by
    apply take_of_length_le
    rw [length_of_bindings hbound]
    exact (paramCount_le _).trans hlength.1
  rw [hall] at hmaps
  refine ⟨hstray, hsegmented, hlength.1, (regexMatch_eq_iff hsegmented _).mp ?_⟩
  rw [hgroups, hfound, eq_of_sameAnswer hnodup hencodable hgroups hfound hmaps]

/-- The trie and the regular expression of one route give the same answer where the path
fits neither, and where the pattern stands for whole segments and no newline is left over.
Without a `/{` in the text between the parameters they do so nowhere else. -/
theorem single_route_agrees_iff {pattern path : Text} {pieces : List Piece}
    {patternBytes pathBytes : Bytes} (hcompile : compileRoute pattern = some pieces)
    (hpattern : pattern.utf8 = some patternBytes) (hpath : path.utf8 = some pathBytes) :
    (Unread pieces path patternBytes pathBytes ∨ WholeSegments pieces path →
      SameAnswer (regexMatch pieces path) ((Router.single patternBytes).at pathBytes)) ∧
    (StrayFree pieces →
      SameAnswer (regexMatch pieces path) ((Router.single patternBytes).at pathBytes) →
        Unread pieces path patternBytes pathBytes ∨ WholeSegments pieces path) := by
  obtain ⟨hslash, hspells, hnodup⟩ := compileRoute_spells hcompile
  obtain ⟨hpieces, rfl⟩ := Text.utf8_eq_some_iff.mp hpattern
  obtain ⟨hencodable, rfl⟩ := Text.utf8_eq_some_iff.mp hpath
  have hhead : pattern.bytes.head? = some slash := by
    obtain ⟨rest, rfl⟩ := head?_eq_some_iff.mp hslash
    rfl
  rw [at_single hhead _]
  subst hspells
  have hread (hstray : StrayFree pieces) : patternBindings (sourceOf pieces).bytes path.bytes =
      bindings (trieTokens pieces) path.bytes := by
    rw [patternBindings, patternTokens_pieces hstray hpieces]
    rfl
  constructor
  · rintro (hunread | hwhole)
    · have hregex : regexMatch pieces path = none := by
        rw [← not_isSome_iff_eq_none, regexMatch, run_isSome_iff]
        exact hunread.1
      have htrie : patternBindings (sourceOf pieces).bytes path.bytes = none := by
        rw [← not_isSome_iff_eq_none]
        exact hunread.2
      rw [hregex, htrie]
      trivial
    · rw [hread hwhole.stray, bindings_segmented hwhole.segmented hpieces hencodable,
        ← (regexMatch_eq_iff hwhole.segmented _).mpr hwhole.newline]
      apply sameAnswer_self
      intro found hfound
      have hnames := (run_names _ hfound).trans (names_item _)
      rw [← length_map, hnames]
      exact hwhole.params
  · intro hstray hsame
    rw [hread hstray] at hsame
    cases hgroups : regexMatch pieces path with
    | none =>
      left
      cases hbound : bindings (trieTokens pieces) path.bytes with
      | none =>
        constructor
        · rw [← run_isSome_iff, ← regexMatch, hgroups]
          exact Bool.false_ne_true
        · rw [PatternMatches, hread hstray, hbound]
          exact Bool.false_ne_true
      | some bound =>
        rw [hgroups, hbound] at hsame
        cases hsame
    | some groups =>
      right
      cases hbound : bindings (trieTokens pieces) path.bytes with
      | none =>
        rw [hgroups, hbound] at hsame
        cases hsame
      | some bound =>
        rw [hgroups, hbound] at hsame
        exact wholeSegments_of_sameAnswer hstray hpieces hnodup hencodable hgroups hbound hsame

/-- Text behind a parameter. -/
def suffixed : Text := plainText "/\x7ba\x7db"

theorem single_route_agrees_iff_known : ∃ pieces,
    compileRoute (plainText "/users/\x7bid\x7d/\x7brest:path\x7d") = some pieces ∧
      (Unread pieces (plainText "/users/7/a/b") (ascii "/users/\x7bid\x7d/\x7brest:path\x7d")
          (ascii "/users/7/a/b") ∨ WholeSegments pieces (plainText "/users/7/a/b") →
        SameAnswer (regexMatch pieces (plainText "/users/7/a/b"))
          ((Router.single (ascii "/users/\x7bid\x7d/\x7brest:path\x7d")).at
            (ascii "/users/7/a/b"))) := by
  obtain ⟨pieces, hpieces⟩ := isSome_iff_exists.mp (by decide +kernel :
      (compileRoute (plainText "/users/\x7bid\x7d/\x7brest:path\x7d")).isSome)
  exact ⟨pieces, hpieces,
    (single_route_agrees_iff hpieces (by decide +kernel) (by decide +kernel)).1⟩

/-- The trie reads the text behind the parameter as part of no segment. -/
theorem single_route_differs : ¬ ∀ (pattern path : Text) (pieces : List Piece)
    (patternBytes pathBytes : Bytes), compileRoute pattern = some pieces →
      pattern.utf8 = some patternBytes → path.utf8 = some pathBytes →
        SameAnswer (regexMatch pieces path) ((Router.single patternBytes).at pathBytes) := by
  intro hall
  have hregex : (compileRoute suffixed).map (fun pieces =>
      (regexMatch pieces (plainText "/xb")).isSome) = some true := by
    decide +kernel
  have htrie : (Router.single (ascii "/\x7ba\x7db")).at (ascii "/xb") = none := by
    decide +kernel
  obtain ⟨pieces, hcompile, hsome⟩ := map_eq_some_iff.mp hregex
  obtain ⟨groups, hgroups⟩ := isSome_iff_exists.mp hsome
  have hsame := hall _ (plainText "/xb") _ (ascii "/\x7ba\x7db") (ascii "/xb") hcompile
    (by decide +kernel) (by decide +kernel)
  rw [hgroups, htrie] at hsame
  exact hsame

end AstraApi.Routing
