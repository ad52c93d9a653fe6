import AstraApi.Lib.Replace
import AstraApi.Router.Agreement
import AstraApi.Router.RoutingBase

/-!
# The path of a route for given parameters

`url_path_for` puts the values one after another into the format of the path.  A value that
was put in is searched for the parameters that come later.
-/

namespace AstraApi.Routing

open List
open Greedy Replace

variable {text lead value : Text} {c : CodePoint} {pieces : List Piece}

def placeholder (key : Text) : Text := openBraceChar :: (key ++ [closeBraceChar])

def Piece.format : Piece → Text
  | .text c => [c]
  | .param name _ => placeholder name.text

def pathFormat (pieces : List Piece) : Text := pieces.flatMap Piece.format

def convertorItems (pieces : List Piece) : List (Text × Convertor) :=
  pieces.filterMap fun piece =>
    match piece with
    | .text _ => none
    | .param name written => some (name.text, convertorOf written)

theorem keys_convertorItems (pieces : List Piece) :
    (convertorItems pieces).map Prod.fst = paramNames pieces := by
  rw [convertorItems, paramNames, map_filterMap]
  congr 1
  ext piece
  cases piece <;> rfl

def PathRegex.paramConvertors (regex : PathRegex) : Dict Text Convertor where
  items := convertorItems regex.pieces
  distinct := keys_convertorItems regex.pieces ▸ regex.distinct

/-- What building a path can raise. -/
inductive RoutingError where
  | noMatchFound (message : Text)
  | assertionError (message : Text)
  | keyError (key : Text)
  deriving DecidableEq

def Convertor.toString : Convertor → Text → Except RoutingError Text
  | .str, value =>
    if slashChar ∈ value then .error (.assertionError (plainText "May not contain path separators"))
    else if value = [] then .error (.assertionError (plainText "Must not be empty"))
    else .ok value
  | .path, value => .ok value

/-- The loop of `replace_params`, with the items that it has not popped. -/
def replaceParams (paramConvertors : Dict Text Convertor) :
    List (Text × Text) → Text → Except RoutingError (Text × List (Text × Text))
  | [], path => .ok (path, [])
  | (key, value) :: params, path =>
    if placeholder key <:+: path then
      match paramConvertors.get key with
      | none => .error (.keyError key)
      | some convertor =>
        match convertor.toString value with
        | .error error => .error error
        | .ok value =>
          replaceParams paramConvertors params (replaceAll (placeholder key) value path)
    else
      match replaceParams paramConvertors params path with
      | .error error => .error error
      | .ok (path, remaining) => .ok (path, (key, value) :: remaining)

def noMatchFound (name : Text) (params : Dict Text Text) : RoutingError :=
  .noMatchFound (plainText "No route exists for name \"" ++ name ++ plainText "\" and params \"" ++
    (plainText ", ").intercalate params.keys ++ plainText "\".")

def Route.urlPathFor {E : Type*} (route : Route E) (name : Text) (pathParams : Dict Text Text) :
    Except RoutingError Text :=
  let paramConvertors := route.pathRegex.paramConvertors
  if name ≠ route.name ∨ pathParams.keys.toFinset ≠ paramConvertors.keys.toFinset then
    .error (noMatchFound name pathParams)
  else
    match replaceParams paramConvertors pathParams.items (pathFormat route.pathRegex.pieces) with
    | .error error => .error error
    | .ok (path, remaining) =>
      -- an assertion without a message
      if remaining = [] then .ok path else .error (.assertionError [])

/-- Matching the path that was built gives the parameters back. -/
def RoundTrips {E : Type*} (route : Route E) (params : Dict Text Text) (scope : Scope E) : Prop :=
  ∃ path, route.urlPathFor route.name params = .ok path ∧
    ∃ found, (route.matches { scope with path := path }).1 ≠ .NONE ∧
      (route.matches { scope with path := path }).2.pathParams = some found ∧ found.Same params

/-! ## Patterns and values -/

/-- Every parameter is followed by `/` or ends the pattern, and a path ends it. -/
def SplitsUniquely : List Piece → Prop
  | [] => True
  | .text _ :: pieces => SplitsUniquely pieces
  | .param _ written :: pieces =>
    (pieces = [] ∨ convertorOf written = .str ∧ pieces.head? = some (.text slashChar)) ∧
      SplitsUniquely pieces

structure Convertor.Takes (convertor : Convertor) (value : Text) : Prop where
  ne_nil : value ≠ []
  line : newline ∉ value
  segment : convertor = .str → slashChar ∉ value

/-- Every parameter has a value that its convertor takes. -/
def Valued (params : Dict Text Text) (pieces : List Piece) : Prop :=
  ∀ name written, .param name written ∈ pieces →
    ∃ value, params.get name.text = some value ∧ (convertorOf written).Takes value

/-- The values are for the parameters of the pattern. -/
structure Assigns (params : Dict Text Text) (pieces : List Piece) : Prop where
  known : ∀ key ∈ params.keys, key ∈ paramNames pieces
  valued : Valued params pieces

/-- The arguments as replacements. -/
def placed (params : List (Text × Text)) : List (Text × Text) :=
  params.map fun param => (placeholder param.1, param.2)

def laterThan (key : Text) (params : List (Text × Text)) : List (Text × Text) :=
  (params.dropWhile (·.1 != key)).tail

/-- Replacing the placeholders of the later arguments in a value, and in the text in front of
it, comes back to the value. -/
def Untouched (params : Dict Text Text) (key lead : Text) : Prop :=
  ∀ value, params.get key = some value →
    replaceEach (placed (laterThan key params.items)) (lead ++ value) = lead ++ value

/-- Every value is untouched, behind the text since the last `/`. -/
def KeepsValues (params : Dict Text Text) : Text → List Piece → Prop
  | _, [] => True
  | lead, .text c :: pieces =>
    KeepsValues params (if c = slashChar then [] else lead ++ [c]) pieces
  | lead, .param name _ :: pieces =>
    Untouched params name.text lead ∧ KeepsValues params [] pieces

/-! ## Where the placeholders are -/

def IsName (key : Text) : Prop :=
  ∃ first rest, key = first :: rest ∧ isNameStart first = true ∧
    ∀ c ∈ rest, isNamePart c = true

theorem isName_of_identifier {rest : Text} {name : Identifier}
    (h : identifier text = some (name, rest)) : IsName name.text := by
  cases text with
  | nil => cases h
  | cons c text =>
    rw [identifier] at h
    split at h
    · rename_i hc
      obtain ⟨rfl, -⟩ := Prod.mk.inj (Option.some.inj h)
      exact ⟨c, text.takeWhile _, rfl, hc, fun d hd => mem_takeWhile_imp hd⟩
    · cases h

theorem isName_of_paramRegex {rest : Text} {name : Identifier} {key : Option Identifier}
    (h : paramRegex text = some (name, key, rest)) : IsName name.text := by
  cases text with
  | nil => cases h
  | cons c text =>
    rw [paramRegex] at h
    split at h
    · split at h
      · cases h
      · cases h
      · rename_i found d tail hfound
        have hname := isName_of_identifier hfound
        split at h
        · rw [← (Prod.mk.inj (Option.some.inj h)).1]
          exact hname
        · split at h
          · split at h
            · cases h
            · cases h
            · split at h
              · rw [← (Prod.mk.inj (Option.some.inj h)).1]
                exact hname
              · cases h
          · cases h
    · cases h

section Name

variable {key : Text} (hkey : IsName key)

include hkey

theorem IsName.all_parts (hc : c ∈ key) : isNamePart c = true := by
  obtain ⟨first, rest, rfl, hfirst, hrest⟩ := hkey
  cases mem_cons.mp hc with
  | inl heq =>
    rw [heq, isNamePart, hfirst]
    rfl
  | inr hmem => exact hrest c hmem

theorem IsName.notMem (hc : isNamePart c = false) : c ∉ key := by
  intro h
  rw [hkey.all_parts h] at hc
  cases hc

theorem IsName.notMem_placeholder (hc : isNamePart c = false)
    (hopen : c ≠ openBraceChar) (hclose : c ≠ closeBraceChar) : c ∉ placeholder key := by
  rw [placeholder, mem_cons, mem_append, mem_singleton]
  rintro (h | h | h)
  · exact hopen h
  · exact hkey.notMem hc h
  · exact hclose h

theorem IsName.openBrace_notMem : openBraceChar ∉ key ++ [closeBraceChar] := by
  rw [mem_append, mem_singleton, not_or]
  exact ⟨hkey.notMem (by decide), by decide⟩

theorem IsName.identifier_append (rest : Text) :
    ∃ name : Identifier, name.text = key ∧
      identifier (key ++ closeBraceChar :: rest) = some (name, closeBraceChar :: rest) := by
  obtain ⟨first, tail, rfl, hfirst, htail⟩ := hkey
  have hclose : isNamePart closeBraceChar = false := by decide
  have htake : (tail ++ closeBraceChar :: rest).takeWhile isNamePart = tail := by
    rw [takeWhile_append_of_pos htail,
      takeWhile_cons_of_neg (by exact Bool.false_ne_true), append_nil]
  have hdrop : (tail ++ closeBraceChar :: rest).dropWhile isNamePart = closeBraceChar :: rest := by
    rw [dropWhile_append_of_pos htail, dropWhile_cons_of_neg (by exact Bool.false_ne_true)]
  have hparts : ∀ c ∈ first :: (tail ++ closeBraceChar :: rest).takeWhile isNamePart,
      isNamePart c = true := isNamePart_of_mem hfirst
  rw [htake] at hparts
  refine ⟨⟨first :: tail, hparts⟩, rfl, ?_⟩
  rw [cons_append, identifier, dif_pos hfirst, hdrop]
  simp [htake]

/-- `PARAM_REGEX` finds a parameter where a placeholder starts. -/
theorem IsName.paramRegex_ne_none (h : placeholder key <+: text) :
    paramRegex text ≠ none := by
  obtain ⟨rest, rfl⟩ := h
  obtain ⟨name, -, hname⟩ := hkey.identifier_append _
  rw [placeholder, cons_append, append_assoc, singleton_append, paramRegex, if_pos rfl, hname]
  dsimp only
  exact Option.some_ne_none _

end Name

/-- The text between the parameters has no parameter. -/
def Scanned : List Piece → Prop
  | [] => True
  | .text c :: pieces => paramRegex (c :: sourceOf pieces) = none ∧ Scanned pieces
  | .param name _ :: pieces => IsName name.text ∧ Scanned pieces

theorem scanned_of_findParams {fuel : ℕ}
    (h : findParams fuel text = some pieces) : Scanned pieces := by
  induction fuel generalizing text pieces with
  | zero => cases h
  | succ fuel ih =>
    cases text with
    | nil =>
      rw [← Option.some.inj h]
      trivial
    | cons c rest =>
      rw [findParams] at h
      split at h
      · rename_i hnone
        obtain ⟨tail, htail, rfl⟩ := Option.map_eq_some_iff.mp h
        rw [Scanned, findParams_spells htail]
        exact ⟨hnone, ih htail⟩
      · rename_i name rest' hparam
        obtain ⟨tail, htail, rfl⟩ := Option.map_eq_some_iff.mp h
        exact ⟨isName_of_paramRegex hparam, ih htail⟩
      · rename_i name key rest' hparam
        split at h
        · cases h
        · obtain ⟨tail, htail, rfl⟩ := Option.map_eq_some_iff.mp h
          exact ⟨isName_of_paramRegex hparam, ih htail⟩

theorem scanned_of_compileRoute {pattern : Text}
    (h : compileRoute pattern = some pieces) : Scanned pieces := by
  rw [compileRoute] at h
  split at h
  · rw [compilePath] at h
    split at h
    · cases h
    · rename_i found hfound
      split at h
      · rw [← Option.some.inj h]
        exact scanned_of_findParams hfound
      · cases h
  · cases h

theorem Scanned.isName (h : Scanned pieces) :
    ∀ key ∈ paramNames pieces, IsName key := by
  induction pieces with
  | nil => simp [paramNames]
  | cons piece pieces ih =>
    cases piece with
    | text c => exact ih h.2
    | param name written =>
      intro key hkey
      cases mem_cons.mp hkey with
      | inl heq =>
        rw [heq]
        exact h.1
      | inr hmem => exact ih h.2 _ hmem

/-- No parameter starts in `lead`, which stands in front of the pieces. -/
def Plain (lead : Text) (pieces : List Piece) : Prop :=
  ∀ part, part ≠ [] → part <:+ lead → paramRegex (part ++ sourceOf pieces) = none

theorem plain_nil (pieces : List Piece) : Plain [] pieces := by
  intro part hne hpart
  exact absurd (suffix_nil.mp hpart) hne

theorem Plain.append {lead : Text} {c : CodePoint} {pieces : List Piece}
    (h : Plain lead (.text c :: pieces)) (hc : paramRegex (c :: sourceOf pieces) = none) :
    Plain (lead ++ [c]) pieces := by
  intro part hne hpart
  cases suffix_concat_iff.mp hpart with
  | inl hnil => exact absurd hnil hne
  | inr hlonger =>
    obtain ⟨front, rfl, hfront⟩ := hlonger
    rw [append_assoc]
    cases front with
    | nil => exact hc
    | cons d front => exact h _ (cons_ne_nil d _) hfront

theorem Plain.not_infix {key : Text} (h : Plain lead pieces)
    (hkey : IsName key) : ¬ placeholder key <:+: lead := by
  rintro ⟨front, back, hlead⟩
  have hstart : placeholder key <+: placeholder key ++ back ++ sourceOf pieces := by
    rw [append_assoc]
    exact prefix_append _ _
  apply hkey.paramRegex_ne_none hstart
  apply h _ (by simp [placeholder])
  exact ⟨front, by rw [← append_assoc]; exact hlead⟩

/-! ## Replacing a placeholder -/

theorem placeholder_ne_nil (key : Text) : placeholder key ≠ [] := cons_ne_nil _ _

theorem placeholder_prefix_inj {key name rest : Text} (hkey : IsName key) (hname : IsName name)
    (h : placeholder key <+: placeholder name ++ rest) : key = name := by
  obtain ⟨more, hmore⟩ := h
  have htext : key ++ closeBraceChar :: more = name ++ closeBraceChar :: rest := by
    simpa [placeholder] using hmore
  obtain ⟨first, rfl, hfirst⟩ := hkey.identifier_append _
  obtain ⟨second, rfl, hsecond⟩ := hname.identifier_append _
  rw [htext, hsecond] at hfirst
  rw [(Prod.mk.inj (Option.some.inj hfirst)).1]

theorem replaceAll_other {key name : Text} (hkey : IsName key) (hname : IsName name)
    (hne : key ≠ name) (value front rest : Text) :
    replaceAll (placeholder key) value (front ++ placeholder name ++ rest) =
      replaceAll (placeholder key) value front ++ placeholder name ++
        replaceAll (placeholder key) value rest := by
  have hcut : replaceAll (placeholder key) value (front ++ (placeholder name ++ rest)) =
      replaceAll (placeholder key) value front ++
        replaceAll (placeholder key) value (placeholder name ++ rest) :=
    replaceAll_append hkey.openBrace_notMem _ _ _
  have hstart : ¬ placeholder key <+: openBraceChar :: (name ++ [closeBraceChar] ++ rest) :=
    fun h => hne (placeholder_prefix_inj hkey hname h)
  have hkeep : replaceAll (placeholder key) value (placeholder name ++ rest) =
      placeholder name ++ replaceAll (placeholder key) value rest :=
    (replaceAll_keep hstart).trans (congrArg _ (replaceAll_behind hname.openBrace_notMem _ _ _))
  rw [append_assoc, hcut, hkeep, append_assoc]

theorem replaceAll_self {key : Text} (hkey : IsName key) (value front rest : Text) :
    replaceAll (placeholder key) value (front ++ placeholder key ++ rest) =
      replaceAll (placeholder key) value front ++ value ++
        replaceAll (placeholder key) value rest := by
  have hcut : replaceAll (placeholder key) value (front ++ (placeholder key ++ rest)) =
      replaceAll (placeholder key) value front ++
        replaceAll (placeholder key) value (placeholder key ++ rest) :=
    replaceAll_append hkey.openBrace_notMem _ _ _
  rw [append_assoc, hcut, replaceAll_found (placeholder_ne_nil _), append_assoc]

theorem replaceEach_other {name : Text} (hname : IsName name) {params : List (Text × Text)}
    (h : ∀ param ∈ params, IsName param.1 ∧ param.1 ≠ name) (front rest : Text) :
    replaceEach (placed params) (front ++ placeholder name ++ rest) =
      replaceEach (placed params) front ++ placeholder name ++
        replaceEach (placed params) rest := by
  induction params generalizing front rest with
  | nil => rfl
  | cons param params ih =>
    obtain ⟨hkey, hne⟩ := h _ mem_cons_self
    have hlater := ih fun other hother => h _ (mem_cons_of_mem _ hother)
    rw [placed, map_cons, replaceEach_cons, replaceEach_cons, replaceEach_cons,
      replaceAll_other hkey hname hne]
    exact hlater _ _

/-- A character that no placeholder has. -/
theorem placed_notMem {params : List (Text × Text)} (h : ∀ param ∈ params, IsName param.1)
    (hc : isNamePart c = false) (hopen : c ≠ openBraceChar)
    (hclose : c ≠ closeBraceChar) : ∀ pair ∈ placed params, pair.1 ≠ [] ∧ c ∉ pair.1 := by
  intro pair hpair
  obtain ⟨param, hparam, rfl⟩ := mem_map.mp hpair
  exact ⟨placeholder_ne_nil _, (h _ hparam).notMem_placeholder hc hopen hclose⟩

theorem placed_slash {params : List (Text × Text)} (h : ∀ param ∈ params, IsName param.1) :
    ∀ pair ∈ placed params, pair.1 ≠ [] ∧ slashChar ∉ pair.1 :=
  placed_notMem h (by decide) (by decide) (by decide)

theorem Plain.replaceEach {lead : Text} {pieces : List Piece} (h : Plain lead pieces)
    {params : List (Text × Text)} (hparams : ∀ param ∈ params, IsName param.1) :
    replaceEach (placed params) lead = lead := by
  apply replaceEach_of_not_infix
  intro pair hpair
  obtain ⟨param, hparam, rfl⟩ := mem_map.mp hpair
  exact h.not_infix (hparams _ hparam)

/-- The loop puts in every value, if each has a placeholder and its convertor takes it. -/
theorem replaceParams_eq {convertors : Dict Text Convertor} {params : List (Text × Text)}
    {path : Text} (hdistinct : (params.map Prod.fst).Nodup)
    (h : ∀ param ∈ params, IsName param.1 ∧ placeholder param.1 <:+: path ∧
      ∃ convertor, convertors.get param.1 = some convertor ∧ convertor.Takes param.2) :
    replaceParams convertors params path = .ok (replaceEach (placed params) path, []) := by
  induction params generalizing path with
  | nil => rfl
  | cons param params ih =>
    obtain ⟨key, value⟩ := param
    obtain ⟨hkey, hfound, convertor, hconvertor, htakes⟩ := h (key, value) mem_cons_self
    have hvalue : convertor.toString value = .ok value := by
      cases convertor with
      | str => rw [Convertor.toString, if_neg (htakes.segment rfl), if_neg htakes.ne_nil]
      | path => rfl
    rw [map_cons, nodup_cons] at hdistinct
    rw [replaceParams, if_pos hfound, hconvertor]
    dsimp only
    rw [hvalue]
    apply ih hdistinct.2
    intro other hother
    obtain ⟨hname, ⟨front, rest, hpath⟩, hrest⟩ := h _ (mem_cons_of_mem _ hother)
    refine ⟨hname, ?_, hrest⟩
    have hne : key ≠ other.1 := fun heq =>
      hdistinct.1 (mem_map.mpr ⟨other, hother, heq.symm⟩)
    rw [← hpath, replaceAll_other hkey hname hne]
    exact ⟨_, _, rfl⟩

theorem items_of_get {params : Dict Text Text} {key : Text}
    (h : params.get key = some value) :
    params.items = params.items.takeWhile (·.1 != key) ++
      (key, value) :: laterThan key params.items := by
  have hmem := Dict.get_eq_some_iff.mp h
  rw [laterThan]
  cases hdrop : params.items.dropWhile (·.1 != key) with
  | nil =>
    have hall := dropWhile_eq_nil_iff.mp hdrop (key, value) hmem
    rw [bne_self_eq_false] at hall
    cases hall
  | cons item later =>
    obtain ⟨found, held⟩ := item
    have hitems : params.items = params.items.takeWhile (·.1 != key) ++ (found, held) :: later := by
      rw [← hdrop, takeWhile_append_dropWhile]
    have hkey : found = key := by
      have hhead := head?_dropWhile_not (fun entry : Text × Text => entry.1 != key) params.items
      rw [hdrop] at hhead
      simpa using hhead
    subst hkey
    have hitem : (found, held) ∈ params.items := by
      rw [hitems]
      exact mem_append_right _ mem_cons_self
    rw [← Dict.get_eq_some_iff, h] at hitem
    rw [tail_cons, Option.some.inj hitem]
    exact hitems

/-- A parameter at the end of a segment: what its later arguments make of the value. -/
theorem replaceEach_param {params : Dict Text Text} (hnames : ∀ key ∈ params.keys, IsName key)
    (hplain : Plain lead pieces) {key : Text}
    (hvalue : params.get key = some value) :
    replaceEach (placed params.items) (lead ++ placeholder key) =
      replaceEach (placed (laterThan key params.items)) (lead ++ value) := by
  have hitems := items_of_get hvalue
  have hkey : IsName key := hnames _ (mem_map_of_mem (Dict.get_eq_some_iff.mp hvalue))
  have hearlier : ∀ param ∈ params.items.takeWhile (·.1 != key),
      IsName param.1 ∧ param.1 ≠ key := by
    intro param hparam
    refine ⟨hnames _ (mem_map_of_mem ((takeWhile_sublist _).mem hparam)), ?_⟩
    exact bne_iff_ne.mp (mem_takeWhile_imp (p := fun entry : Text × Text => entry.1 != key) hparam)
  have hlead := hplain.replaceEach fun param hparam => (hearlier _ hparam).1
  have hfront := hplain.not_infix hkey
  calc replaceEach (placed params.items) (lead ++ placeholder key)
      = replaceEach (placed (laterThan key params.items)) (replaceAll (placeholder key) value
          (replaceEach (placed (params.items.takeWhile (·.1 != key)))
            (lead ++ placeholder key ++ []))) := by
        rw [append_nil]
        nth_rewrite 1 [hitems]
        rw [placed, map_append, map_cons, replaceEach_append, replaceEach_cons]
        rfl
    _ = replaceEach (placed (laterThan key params.items)) (lead ++ value) := by
        rw [replaceEach_other hkey hearlier, hlead, replaceEach_nil, replaceAll_self hkey,
          replaceAll_of_not_infix hfront, replaceAll_nil, append_nil]

/-! ## The whole path -/

def Piece.fill (params : Dict Text Text) : Piece → Text
  | .text c => [c]
  | .param name _ => (params.get name.text).getD []

/-- The pattern with its values. -/
def fill (params : Dict Text Text) (pieces : List Piece) : Text :=
  pieces.flatMap (Piece.fill params)

@[simp]
theorem pathFormat_cons (piece : Piece) (pieces : List Piece) :
    pathFormat (piece :: pieces) = piece.format ++ pathFormat pieces := rfl

@[simp]
theorem fill_cons (params : Dict Text Text) (piece : Piece) (pieces : List Piece) :
    fill params (piece :: pieces) = piece.fill params ++ fill params pieces := rfl

theorem Valued.tail {params : Dict Text Text} {piece : Piece}
    (h : Valued params (piece :: pieces)) : Valued params pieces :=
  fun _ _ hmem => h _ _ (mem_cons_of_mem _ hmem)

theorem untouched_iff {params : Dict Text Text} {key : Text}
    (hvalue : params.get key = some value) (lead : Text) :
    Untouched params key lead ↔
      replaceEach (placed (laterThan key params.items)) (lead ++ value) = lead ++ value := by
  constructor
  · intro h
    exact h _ hvalue
  · intro h other hother
    rw [hvalue] at hother
    rw [← Option.some.inj hother]
    exact h

section Build

variable {params : Dict Text Text} (hnames : ∀ key ∈ params.keys, IsName key)

include hnames

theorem isName_item : ∀ param ∈ params.items, IsName param.1 :=
  fun _ hparam => hnames _ (mem_map_of_mem hparam)

theorem isName_later (key : Text) : ∀ param ∈ laterThan key params.items, IsName param.1 := by
  intro param hparam
  exact isName_item hnames _ ((dropWhile_sublist _).mem (mem_of_mem_tail hparam))

theorem replaceEach_segment (front rest : Text) :
    replaceEach (placed params.items) (front ++ slashChar :: rest) =
      replaceEach (placed params.items) front ++
        slashChar :: replaceEach (placed params.items) rest :=
  replaceEach_separator (placed_slash (isName_item hnames)) _ _

theorem replaceEach_param_append {before : List Piece}
    (hplain : Plain lead before) {key : Text} (hvalue : params.get key = some value)
    (hnext : pieces = [] ∨ pieces.head? = some (.text slashChar)) :
    replaceEach (placed params.items) (lead ++ placeholder key ++ pathFormat pieces) =
      replaceEach (placed (laterThan key params.items)) (lead ++ value) ++
        replaceEach (placed params.items) (pathFormat pieces) := by
  have hparam := replaceEach_param hnames hplain hvalue
  cases pieces with
  | nil => rw [pathFormat, flatMap_nil, append_nil, hparam, replaceEach_nil,
      append_nil]
  | cons piece pieces =>
    have hpiece : piece = .text slashChar := by simpa using hnext
    have hslash := replaceEach_segment hnames [] (pathFormat pieces)
    rw [nil_append, replaceEach_nil, nil_append] at hslash
    rw [hpiece, pathFormat_cons, Piece.format, singleton_append,
      replaceEach_segment hnames, hparam, hslash]

theorem count_fill_le (hplain : Plain lead pieces)
    (hscanned : Scanned pieces) (hsplit : SplitsUniquely pieces) (hvalued : Valued params pieces) :
    (fill params pieces).count slashChar ≤
      (replaceEach (placed params.items) (lead ++ pathFormat pieces)).count slashChar := by
  induction pieces generalizing lead with
  | nil => exact Nat.zero_le _
  | cons piece pieces ih =>
    cases piece with
    | text c =>
      rw [fill_cons, Piece.fill, pathFormat_cons, Piece.format, singleton_append, singleton_append]
      by_cases hc : c = slashChar
      · have hrest := ih (plain_nil _) hscanned.2 hsplit hvalued.tail
        rw [nil_append] at hrest
        rw [hc, replaceEach_segment hnames, count_append, count_cons_self, count_cons_self]
        omega
      · have hrest := ih (hplain.append hscanned.1) hscanned.2 hsplit hvalued.tail
        rw [append_assoc, singleton_append] at hrest
        rw [count_cons_of_ne hc]
        exact hrest
    | param name written =>
      obtain ⟨value, hvalue, -⟩ := hvalued _ _ mem_cons_self
      have hrest := ih (plain_nil _) hscanned.2 hsplit.2 hvalued.tail
      rw [nil_append] at hrest
      have hlater := count_replaceEach_le (placed_slash (isName_later hnames name.text))
        (lead ++ value)
      rw [count_append] at hlater
      rw [fill_cons, Piece.fill, hvalue, Option.getD_some, pathFormat_cons, Piece.format,
        ← append_assoc, replaceEach_param_append hnames hplain hvalue
          (hsplit.1.imp_right And.right), count_append, count_append]
      omega

/-- The path is the pattern with its values exactly if every value is kept. -/
theorem replaceEach_eq_fill_iff (hplain : Plain lead pieces)
    (hlead : slashChar ∉ lead) (hscanned : Scanned pieces) (hsplit : SplitsUniquely pieces)
    (hvalued : Valued params pieces) :
    replaceEach (placed params.items) (lead ++ pathFormat pieces) = lead ++ fill params pieces ↔
      KeepsValues params lead pieces := by
  induction pieces generalizing lead with
  | nil =>
    apply iff_of_true _ trivial
    rw [pathFormat, fill, flatMap_nil, flatMap_nil, append_nil]
    exact hplain.replaceEach (isName_item hnames)
  | cons piece pieces ih =>
    cases piece with
    | text c =>
      rw [fill_cons, Piece.fill, pathFormat_cons, Piece.format, singleton_append,
        singleton_append, KeepsValues]
      by_cases hc : c = slashChar
      · have hrest := ih (plain_nil _) not_mem_nil hscanned.2 hsplit hvalued.tail
        rw [nil_append, nil_append] at hrest
        rw [if_pos hc, hc, replaceEach_segment hnames,
          hplain.replaceEach (isName_item hnames), append_cancel_left_eq,
          cons_inj_right, hrest]
      · have hshort : slashChar ∉ lead ++ [c] := by
          rw [mem_append, mem_singleton, not_or]
          exact ⟨hlead, Ne.symm hc⟩
        have hrest := ih (hplain.append hscanned.1) hshort hscanned.2 hsplit hvalued.tail
        rw [append_assoc, append_assoc, singleton_append, singleton_append] at hrest
        rw [if_neg hc, hrest]
    | param name written =>
      obtain ⟨value, hvalue, htakes⟩ := hvalued _ _ mem_cons_self
      have hrest := ih (plain_nil _) not_mem_nil hscanned.2 hsplit.2 hvalued.tail
      rw [nil_append, nil_append] at hrest
      rw [fill_cons, Piece.fill, hvalue, Option.getD_some, pathFormat_cons, Piece.format,
        ← append_assoc, ← append_assoc, replaceEach_param_append hnames hplain hvalue
          (hsplit.1.imp_right And.right), KeepsValues, untouched_iff hvalue, ← hrest]
      rcases hsplit.1 with rfl | ⟨hstr, hhead⟩
      · rw [pathFormat, fill, flatMap_nil, flatMap_nil, replaceEach_nil,
          append_nil, append_nil, and_iff_left rfl]
      · obtain ⟨tail, rfl⟩ : ∃ tail, pieces = .text slashChar :: tail := by
          cases pieces with
          | nil => cases hhead
          | cons piece tail => exact ⟨tail, by rw [Option.some.inj hhead]⟩
        have hfront : slashChar ∉ lead ++ value := by
          rw [mem_append, not_or]
          exact ⟨hlead, htakes.segment hstr⟩
        have hcount := count_fill_le hnames (plain_nil _) hscanned.2.2 hsplit.2 hvalued.tail.tail
        have hslash := replaceEach_segment hnames [] (pathFormat tail)
        rw [nil_append, replaceEach_nil, nil_append] at hslash
        rw [nil_append] at hcount
        rw [fill_cons, Piece.fill, pathFormat_cons, Piece.format, singleton_append,
          singleton_append, hslash, append_cons_inj_of_count hfront hcount,
          cons_inj_right]

end Build

/-! ## Matching the path -/

/-- The parameters in the order of the pattern. -/
def boundItems (params : Dict Text Text) (pieces : List Piece) : List (Text × Text) :=
  (paramNames pieces).map fun key => (key, (params.get key).getD [])

section Segment

variable {pieces : List Piece} (hnext : pieces = [] ∨ pieces.head? = some (.text slashChar))

include hnext

theorem startsSegment_of_next : startsSegment pieces = true := by
  cases pieces with
  | nil => rfl
  | cons piece tail =>
    have hpiece : piece = .text slashChar := by simpa using hnext
    rw [startsSegment, hpiece]
    exact beq_self_eq_true _

/-- A value that has no `/` is read up to the next one. -/
theorem segment_fill (params : Dict Text Text) (h : slashChar ∉ value) :
    (value ++ fill params pieces).takeWhile (· != slashChar) = value ∧
      (value ++ fill params pieces).dropWhile (· != slashChar) = fill params pieces := by
  have hall : ∀ c ∈ value, (c != slashChar) = true := by
    intro c hc
    rw [bne_iff_ne]
    intro heq
    exact h (heq ▸ hc)
  rw [takeWhile_append_of_pos hall, dropWhile_append_of_pos hall]
  cases pieces with
  | nil => exact ⟨append_nil _, rfl⟩
  | cons piece tail =>
    have hpiece : piece = .text slashChar := by simpa using hnext
    rw [hpiece, fill_cons, Piece.fill, singleton_append,
      takeWhile_cons_of_neg (by simp), dropWhile_cons_of_neg (by simp)]
    exact ⟨append_nil _, rfl⟩

end Segment

theorem regexMatch_fill {params : Dict Text Text}
    (hsplit : SplitsUniquely pieces) (hvalued : Valued params pieces) :
    regexMatch pieces (fill params pieces) = some (boundItems params pieces) := by
  induction pieces with
  | nil => rfl
  | cons piece pieces ih =>
    cases piece with
    | text c =>
      rw [fill_cons, Piece.fill, singleton_append, regexMatch_text]
      dsimp only
      rw [if_pos rfl]
      exact ih hsplit hvalued.tail
    | param name written =>
      obtain ⟨value, hvalue, htakes⟩ := hvalued _ _ mem_cons_self
      have hrest := ih hsplit.2 hvalued.tail
      have hbound : boundItems params (.param name written :: pieces) =
          (name.text, value) :: boundItems params pieces := by
        change (name.text, (params.get name.text).getD []) :: _ = _
        rw [hvalue]
        rfl
      rw [fill_cons, Piece.fill, hvalue, Option.getD_some, hbound]
      cases hwritten : isPath written with
      | true =>
        have hpath : convertorOf written = .path := by
          rw [eq_of_beq hwritten]
          rfl
        have hlast : pieces = [] := by
          cases hsplit.1 with
          | inl hnil => exact hnil
          | inr hstr =>
            rw [hpath] at hstr
            cases hstr.1
        subst hlast
        rw [fill, flatMap_nil, append_nil]
        exact (regexMatch_path_iff _ hwritten _).mpr htakes.line
      | false =>
        have hsegment : slashChar ∉ value := by
          apply htakes.segment
          cases written with
          | none => rfl
          | some convertor =>
            cases convertor with
            | str => rfl
            | path => cases hwritten
        have hnext := hsplit.1.imp_right And.right
        obtain ⟨htake, hdrop⟩ := segment_fill hnext _ hsegment
        rw [regexMatch_param _ hwritten (startsSegment_of_next hnext), htake,
          if_neg htakes.ne_nil, hdrop, hrest, Option.map_some]

theorem spell_eq_fill {params : Dict Text Text} {bound : List (Text × Text)}
    (hkeys : bound.map Prod.fst = paramNames pieces)
    (hbound : ∀ entry ∈ bound, params.get entry.1 = some entry.2) :
    spell (pieces.map Piece.item) bound = fill params pieces := by
  induction pieces generalizing bound with
  | nil => rfl
  | cons piece pieces ih =>
    cases piece with
    | text c =>
      rw [map_cons, Piece.item, spell, ih hkeys hbound]
      rfl
    | param name written =>
      cases bound with
      | nil => cases hkeys
      | cons entry bound =>
        obtain ⟨key, value⟩ := entry
        obtain ⟨rfl, hrest⟩ := List.cons.inj hkeys
        have htail := ih hrest fun other hother => hbound _ (mem_cons_of_mem _ hother)
        rw [map_cons, fill_cons, Piece.fill, hbound _ mem_cons_self, ← htail, Piece.item]
        cases convertorOf written <;> rfl

theorem count_newline_format {params : Dict Text Text}
    (hscanned : Scanned pieces) (hvalued : Valued params pieces) :
    (pathFormat pieces).count newline = (fill params pieces).count newline := by
  induction pieces with
  | nil => rfl
  | cons piece pieces ih =>
    rw [pathFormat_cons, fill_cons, count_append, count_append]
    cases piece with
    | text c => rw [ih hscanned.2 hvalued.tail, Piece.format, Piece.fill]
    | param name written =>
      obtain ⟨value, hvalue, htakes⟩ := hvalued _ _ mem_cons_self
      have hname : newline ∉ placeholder name.text :=
        hscanned.1.notMem_placeholder (by decide) (by decide) (by decide)
      rw [ih hscanned.2 hvalued.tail, Piece.format, Piece.fill, hvalue, Option.getD_some,
        count_eq_zero_of_not_mem hname, count_eq_zero_of_not_mem htakes.line]

/-! ## Building and matching -/

theorem exists_param_of_mem {key : Text} (h : key ∈ paramNames pieces) :
    ∃ name written, Piece.param name written ∈ pieces ∧ name.text = key := by
  obtain ⟨piece, hpiece, hname⟩ := mem_filterMap.mp h
  cases piece with
  | text c => cases hname
  | param name written => exact ⟨name, written, hpiece, Option.some.inj hname⟩

section Route

variable {E : Type*} (route : Route E) {params : Dict Text Text}
  (hassigns : Assigns params route.pathRegex.pieces)

include hassigns

theorem Assigns.isName : ∀ key ∈ params.keys, IsName key :=
  fun key hkey => (scanned_of_compileRoute route.compiled).isName key (hassigns.known _ hkey)

theorem urlPathFor_eq :
    route.urlPathFor route.name params =
      .ok (replaceEach (placed params.items) (pathFormat route.pathRegex.pieces)) := by
  have hnames := Assigns.isName _ hassigns
  have hparams : ∀ key, key ∈ params.keys ↔ key ∈ paramNames route.pathRegex.pieces := by
    intro key
    refine ⟨hassigns.known _, fun hkey => ?_⟩
    obtain ⟨name, written, hpiece, hname⟩ := exists_param_of_mem hkey
    obtain ⟨value, hvalue, -⟩ := hassigns.valued _ _ hpiece
    rw [← hname]
    exact mem_map_of_mem (Dict.get_eq_some_iff.mp hvalue)
  have hkeys : params.keys.toFinset = route.pathRegex.paramConvertors.keys.toFinset := by
    apply Finset.ext
    intro key
    rw [mem_toFinset, mem_toFinset, hparams, Dict.keys]
    exact (keys_convertorItems _).symm ▸ Iff.rfl
  have hreplace : replaceParams route.pathRegex.paramConvertors params.items
      (pathFormat route.pathRegex.pieces) =
        .ok (replaceEach (placed params.items) (pathFormat route.pathRegex.pieces), []) := by
    apply replaceParams_eq params.distinct
    intro param hparam
    have hkey : param.1 ∈ params.keys := mem_map_of_mem hparam
    obtain ⟨name, written, hpiece, hname⟩ := exists_param_of_mem ((hparams _).mp hkey)
    obtain ⟨value, hvalue, htakes⟩ := hassigns.valued _ _ hpiece
    rw [hname, Dict.get_eq_some_iff.mpr hparam] at hvalue
    refine ⟨hnames _ hkey, ?_, convertorOf written, ?_, ?_⟩
    · obtain ⟨before, after, hpieces⟩ := append_of_mem hpiece
      rw [hpieces, ← hname, pathFormat, flatMap_append, flatMap_cons]
      exact ⟨_, _, append_assoc _ _ _⟩
    · rw [Dict.get_eq_some_iff]
      exact mem_filterMap.mpr ⟨_, hpiece, by rw [← hname]⟩
    · rw [Option.some.inj hvalue]
      exact htakes
  rw [Route.urlPathFor, if_neg (by simp [hkeys]), hreplace]
  rfl

/-- Matching finds the parameters in the path exactly if the path is the pattern with its
values. -/
theorem groupdict_iff (hsplit : SplitsUniquely route.pathRegex.pieces) {path : Text}
    (hlines : path.count newline = (fill params route.pathRegex.pieces).count newline) :
    (∃ found, route.pathRegex.groupdict path = some found ∧ found.Same params) ↔
      path = fill params route.pathRegex.pieces := by
  constructor
  · rintro ⟨found, hfound, hsame⟩
    have hmatch := PathRegex.groupdict_eq_some_iff.mp hfound
    have hspell : spell (route.pathRegex.pieces.map Piece.item) found.items =
        fill params route.pathRegex.pieces := by
      apply spell_eq_fill (keys_regexMatch hmatch)
      intro entry hentry
      rw [← hsame]
      exact Dict.get_eq_some_iff.mpr hentry
    obtain ⟨rest, hpath, hend⟩ := run_spells _ hmatch
    rw [hspell] at hpath
    -- `$` would also match in front of a newline, but the path has no newline to spare
    have hrest : rest.count newline = 0 := by
      rw [hpath, count_append] at hlines
      omega
    rw [atDollar, Bool.or_eq_true, beq_iff_eq, beq_iff_eq] at hend
    rcases hend with rfl | rfl
    · rw [hpath, append_nil]
    · cases hrest
  · rintro rfl
    have hmatch := regexMatch_fill hsplit hassigns.valued
    have hkeys := keys_regexMatch hmatch
    refine ⟨⟨boundItems _ _, hkeys ▸ route.pathRegex.distinct⟩,
      PathRegex.groupdict_eq_some_iff.mpr hmatch, ?_⟩
    intro key
    by_cases hkey : key ∈ paramNames route.pathRegex.pieces
    · obtain ⟨name, written, hpiece, rfl⟩ := exists_param_of_mem hkey
      obtain ⟨value, hvalue, -⟩ := hassigns.valued _ _ hpiece
      rw [hvalue, Dict.get_eq_some_iff]
      exact mem_map.mpr ⟨name.text, hkey, by rw [hvalue]; rfl⟩
    · rw [Dict.get_eq_none_iff.mpr fun hmem => hkey (hassigns.known _ hmem),
        Dict.get_eq_none_iff, Dict.keys, hkeys]
      exact hkey

end Route

theorem matches_of_root {E : Type*} (route : Route E) {scope : Scope E}
    (htype : scope.type = .http) (hroot : scope.root = [])
    (hparams : scope.pathParams.getD .empty = .empty) (path : Text) {params : Dict Text Text} :
    (∃ found, (route.matches { scope with path := path }).1 ≠ .NONE ∧
        (route.matches { scope with path := path }).2.pathParams = some found ∧
        found.Same params) ↔
      ∃ found, route.pathRegex.groupdict path = some found ∧ found.Same params := by
  have hpath : getRoutePath { scope with path := path } = path := by
    exact if_pos hroot
  rw [Route.matches, if_pos htype, hpath, hparams]
  cases hfound : route.pathRegex.groupdict path with
  | none => simp
  | some found =>
    dsimp only
    constructor
    · rintro ⟨other, -, hother, hsame⟩
      refine ⟨found, rfl, fun key => ?_⟩
      rw [← Dict.same_empty_update, Option.some.inj hother, hsame]
    · rintro ⟨other, hother, hsame⟩
      rw [Option.some.inj hother]
      refine ⟨_, ?_, rfl, fun key => (Dict.same_empty_update _ _).trans (hsame _)⟩
      split <;> simp

/-- The parameters come back exactly if every value is kept. -/
theorem roundTrips_iff {E : Type*} (route : Route E) {params : Dict Text Text} {scope : Scope E}
    (htype : scope.type = .http) (hroot : scope.root = [])
    (hparams : scope.pathParams.getD .empty = .empty)
    (hsplit : SplitsUniquely route.pathRegex.pieces)
    (hassigns : Assigns params route.pathRegex.pieces) :
    RoundTrips route params scope ↔ KeepsValues params [] route.pathRegex.pieces := by
  have hscanned := scanned_of_compileRoute route.compiled
  have hnames := Assigns.isName _ hassigns
  have hlines : (replaceEach (placed params.items) (pathFormat route.pathRegex.pieces)).count
      newline = (fill params route.pathRegex.pieces).count newline := by
    rw [← count_newline_format hscanned hassigns.valued]
    apply count_replaceEach (placed_notMem (isName_item hnames) (by decide) (by decide) (by decide))
    intro pair hpair
    obtain ⟨param, hparam, rfl⟩ := mem_map.mp hpair
    obtain ⟨name, written, hpiece, hname⟩ :=
      exists_param_of_mem (hassigns.known param.1 (mem_map_of_mem hparam))
    obtain ⟨value, hvalue, htakes⟩ := hassigns.valued _ _ hpiece
    rw [hname, Dict.get_eq_some_iff.mpr hparam] at hvalue
    rw [Option.some.inj hvalue]
    exact htakes.line
  rw [← replaceEach_eq_fill_iff hnames (plain_nil _) not_mem_nil hscanned hsplit
    hassigns.valued, nil_append, nil_append, ← groupdict_iff _ hassigns hsplit hlines,
    RoundTrips, urlPathFor_eq _ hassigns]
  constructor
  · rintro ⟨path, hpath, hfound⟩
    rw [Except.ok.inj hpath]
    exact (matches_of_root _ htype hroot hparams _).mp hfound
  · intro hfound
    exact ⟨_, rfl, (matches_of_root _ htype hroot hparams _).mpr hfound⟩

/-! ## A pattern with two parameters -/

/-- `a` -/
def firstName : Identifier := ⟨[97], forall_mem_singleton.mpr (by decide)⟩

/-- `b` -/
def secondName : Identifier := ⟨[98], forall_mem_singleton.mpr (by decide)⟩

def pairPieces : List Piece :=
  [.text slashChar, .param firstName none, .text slashChar, .param secondName none]

def pairRoute : Route Unit where
  path := plainText "/\x7ba\x7d/\x7bb\x7d"
  endpoint := ()
  name := plainText "pair"
  methods := none
  pathRegex := ⟨pairPieces, by decide +kernel⟩
  compiled := by decide +kernel

/-- The arguments `a` and `b`, in this order. -/
def pairParams (first second : Text) : Dict Text Text where
  items := [(firstName.text, first), (secondName.text, second)]
  distinct := by
    change [firstName.text, secondName.text].Nodup
    decide +kernel

theorem assigns_pairParams {first second : Text} (hfirst : Convertor.str.Takes first)
    (hsecond : Convertor.str.Takes second) : Assigns (pairParams first second) pairPieces where
  known := by
    intro key hkey
    exact hkey
  valued := by
    intro name written hmem
    have hcases : Piece.param name written = .param firstName none ∨
        Piece.param name written = .param secondName none := by
      simpa [pairPieces] using hmem
    rcases hcases with h | h
    · obtain ⟨rfl, rfl⟩ := Piece.param.inj h
      exact ⟨first, rfl, hfirst⟩
    · obtain ⟨rfl, rfl⟩ := Piece.param.inj h
      exact ⟨second, rfl, hsecond⟩

theorem roundTrips_earlier_placeholder :
    RoundTrips pairRoute (pairParams (plainText "x") (plainText "\x7ba\x7d"))
      (requestScope []) := by
  have hfirst : Convertor.str.Takes (plainText "x") :=
    ⟨by decide, by decide, fun _ => by decide⟩
  have hsecond : Convertor.str.Takes (plainText "\x7ba\x7d") :=
    ⟨by decide, by decide, fun _ => by decide⟩
  apply (roundTrips_iff _ rfl rfl rfl ?_ (assigns_pairParams hfirst hsecond)).mpr
  · exact ⟨(untouched_iff rfl _).mpr (by decide +kernel),
      (untouched_iff rfl _).mpr (by decide +kernel), trivial⟩
  · exact ⟨Or.inr ⟨rfl, rfl⟩, Or.inl rfl, trivial⟩

theorem not_roundTrips_later_placeholder :
    ¬ ∀ (route : Route Unit) (params : Dict Text Text) (scope : Scope Unit), scope.type = .http →
      scope.root = [] → scope.pathParams.getD .empty = .empty →
      SplitsUniquely route.pathRegex.pieces → Assigns params route.pathRegex.pieces →
      RoundTrips route params scope := by
  intro hall
  have hfirst : Convertor.str.Takes (plainText "\x7bb\x7d") :=
    ⟨by decide, by decide, fun _ => by decide⟩
  have hsecond : Convertor.str.Takes (plainText "x") :=
    ⟨by decide, by decide, fun _ => by decide⟩
  have hsplit : SplitsUniquely pairPieces := ⟨Or.inr ⟨rfl, rfl⟩, Or.inl rfl, trivial⟩
  obtain ⟨path, hpath, found, -, hfound, hsame⟩ := hall pairRoute _ (requestScope []) rfl rfl rfl
    hsplit
    (assigns_pairParams hfirst hsecond)
  have hbuilt : pairRoute.urlPathFor pairRoute.name
      (pairParams (plainText "\x7bb\x7d") (plainText "x")) = .ok (plainText "/x/x") := by
    rfl
  rw [hbuilt] at hpath
  rw [← Except.ok.inj hpath] at hfound
  have hread : ((pairRoute.matches { requestScope [] with path := plainText "/x/x" }).2.pathParams.map
      fun params => params.get (plainText "a")) = some (some (plainText "x")) := by
    decide +kernel
  rw [hfound, Option.map_some, hsame] at hread
  exact absurd hread (by decide +kernel)

end AstraApi.Routing
