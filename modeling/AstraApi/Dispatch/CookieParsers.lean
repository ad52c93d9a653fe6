import AstraApi.Dispatch.QueryParsers

/-!
# Two readers of a `Cookie` header

`parse_cookie_header` makes a dictionary for `Request.cookies`, and `dispatch_one_request`
assigns the declared cookies by itself.  Both look for the next `=` past any `;`, so that
a segment without one becomes a part of the name that follows.
-/

namespace AstraApi.Dispatch

open Option hiding map_map
open List
open Deps (Name Kwargs)
open Grouping (valuesOf)
open Routing (splitAtByte splitAtByte_append splitAtByte_none length_of_splitAtByte)

/-! ## The readers -/

def tab : Byte := 9

def isBlank (b : Byte) : Bool := b == space || b == tab

/-- The loop over the pairs, by what it skips in front of a name. -/
def scanPairs (skip : Byte → Bool) (value : Bytes) : List (Bytes × Bytes) :=
  match _hsplit : splitAtByte equals (value.dropWhile skip) with
  | none => []
  | some (name, rest) =>
    (name, rest.takeWhile (· ≠ semicolon)) :: scanPairs skip (rest.dropWhile (· ≠ semicolon))
termination_by value.length
decreasing_by
  have hlength := length_of_splitAtByte _hsplit
  have hdropped : (value.dropWhile skip).length ≤ value.length := (dropWhile_suffix _).length_le
  have hrest : (rest.dropWhile (· ≠ semicolon)).length ≤ rest.length :=
    (dropWhile_suffix _).length_le
  omega

def skipsBlank (b : Byte) : Bool := b == space || b == semicolon || b == tab

def skipsSpace (b : Byte) : Bool := b == space || b == semicolon

def parseCookie (result : Kwargs String) (pair : Bytes × Bytes) : Option (Kwargs String) := do
  let key ← pyUnicode pair.1
  let val ← pyUnicode (pair.2.rdropWhile isBlank)
  return result.set key val

/-- `py_parse_cookie_header`; `none` is an exception. -/
def parseCookieHeader (cookie : Bytes) : Option (Kwargs String) :=
  (scanPairs skipsBlank cookie).foldlM parseCookie Kwargs.empty

/-- A `Cookie` header in `dispatch_one_request`. -/
def cookieLoop (spec : FastRouteSpec) (value : Bytes) (kwargs : Kwargs Value) :
    Except Fault (Kwargs Value) :=
  (cookiePairs value).foldlM (cookieStep spec) kwargs

/-- The loop gives a declared cookie the value that the dictionary has for it. -/
def CookiesAgree (header : Bytes) : Prop :=
  ∃ dict, parseCookieHeader header = some dict ∧
    ∀ (spec : FastRouteSpec) (kwargs : Kwargs Value) (fs : FieldSpec),
      spec.cookieMap (nameBytes fs.fieldName) = some fs →
        ∃ result, cookieLoop spec header kwargs = .ok result ∧
          result fs.fieldName = ((dict fs.fieldName).map Value.text).or (kwargs fs.fieldName)

/-! ## Headers of segments -/

/-- A part of a header between semicolons. -/
inductive CookieSegment where
  | pair (before : ℕ) (name value : Bytes) (behind : ℕ)
  | bare (text : Bytes)

def CookieSegment.text : CookieSegment → Bytes
  | .pair before name value behind =>
    List.replicate before space ++ name ++ equals :: value ++ List.replicate behind space
  | .bare text => text

def CookieSegment.WellFormed : CookieSegment → Prop
  | .pair _ name value _ =>
    (∀ b ∈ name, b ≠ equals ∧ skipsBlank b = false) ∧ semicolon ∉ value ∧
      ∀ b ∈ value.getLast?, isBlank b = false
  | .bare text => equals ∉ text ∧ semicolon ∉ text

def CookieSegment.cookie : CookieSegment → Option (Bytes × Bytes)
  | .pair _ name value _ => some (name, value)
  | .bare _ => none

def cookiesOf (items : List CookieSegment) : List (Bytes × Bytes) :=
  items.filterMap CookieSegment.cookie

def headerOf (items : List CookieSegment) : Bytes :=
  [semicolon].intercalate (items.map CookieSegment.text)

/-- The dictionary has every cookie. -/
def MapsCookies (items : List CookieSegment) : Prop :=
  ∃ dict, parseCookieHeader (headerOf items) = some dict ∧
    ∀ cookie ∈ cookiesOf items, ∃ name value, pyUnicode cookie.1 = some name ∧
      pyUnicode cookie.2 = some value ∧ dict name = some value

def AssignsCookies (items : List CookieSegment) : Prop :=
  ∀ (spec : FastRouteSpec) (kwargs : Kwargs Value) (fs : FieldSpec),
    spec.cookieMap (nameBytes fs.fieldName) = some fs →
      ∀ cookie ∈ cookiesOf items, cookie.1 = nameBytes fs.fieldName →
        ∃ result value, cookieLoop spec (headerOf items) kwargs = .ok result ∧
          pyUnicode cookie.2 = some value ∧ result fs.fieldName = some (.text value)

/-- A segment without `=` in front of a cookie has nothing but what is skipped. -/
def Harmless (skip : Byte → Bool) : List CookieSegment → Prop
  | [] => True
  | .bare text :: items => (cookiesOf items ≠ [] → ∀ b ∈ text, skip b = true) ∧ Harmless skip items
  | .pair _ _ _ _ :: items => Harmless skip items

def Tight (items : List CookieSegment) : Prop :=
  ∀ before name value behind, .pair before name value behind ∈ items → behind = 0

/-! ## Scanning -/

theorem scanPairs_eq (skip : Byte → Bool) (value : Bytes) :
    scanPairs skip value =
      match splitAtByte equals (value.dropWhile skip) with
      | none => []
      | some (name, rest) =>
        (name, rest.takeWhile (· ≠ semicolon)) ::
          scanPairs skip (rest.dropWhile (· ≠ semicolon)) := by
  rw [scanPairs]
  split
  · next hnone => rw [hnone]
  · next hsome => rw [hsome]

theorem cookiePairs_eq_scanPairs (value : Bytes) : cookiePairs value = scanPairs skipsSpace value := by
  induction value using cookiePairs.induct with
  | case1 value hsplit =>
    have hskip : splitAtByte equals (value.dropWhile skipsSpace) = none := hsplit
    rw [cookiePairs_eq, scanPairs_eq, hsplit, hskip]
  | case2 value name rest hsplit ih =>
    have hskip : splitAtByte equals (value.dropWhile skipsSpace) = some (name, rest) := hsplit
    rw [cookiePairs_eq, scanPairs_eq, hsplit, hskip]
    exact congrArg _ ih

theorem splitAtByte_eq_none_iff {target : Byte} {text : Bytes} :
    splitAtByte target text = none ↔ target ∉ text := by
  refine ⟨fun h hmem => ?_, splitAtByte_none⟩
  obtain ⟨front, back, rfl, hfront⟩ := eq_append_cons_of_mem hmem
  rw [splitAtByte_append hfront] at h
  cases h

theorem splitAtByte_eq_some_iff {target : Byte} {text left right : Bytes} :
    splitAtByte target text = some (left, right) ↔ text = left ++ target :: right ∧ target ∉ left := by
  constructor
  · intro h
    have hmem : target ∈ text := by
      by_contra hnot
      rw [splitAtByte_none hnot] at h
      cases h
    obtain ⟨front, back, rfl, hfront⟩ := eq_append_cons_of_mem hmem
    rw [splitAtByte_append hfront] at h
    cases h
    exact ⟨rfl, hfront⟩
  · rintro ⟨rfl, hleft⟩
    exact splitAtByte_append hleft _

variable {skip : Byte → Bool} {value front : Bytes} {pairs : List (Bytes × Bytes)}
  {items : List CookieSegment}

theorem dropWhile_dropWhile {more : Byte → Bool} (h : ∀ b, skip b = true → more b = true)
    (bytes : Bytes) : (bytes.dropWhile skip).dropWhile more = bytes.dropWhile more := by
  induction bytes with
  | nil => rfl
  | cons b bytes ih =>
    rw [dropWhile_cons]
    split
    · next hb => rw [ih, dropWhile_cons_of_pos (h b hb)]
    · rfl

theorem dropWhile_append_stop {stop : Byte} (h : skip stop = false)
    (front back : Bytes) :
    (front ++ stop :: back).dropWhile skip = front.dropWhile skip ++ stop :: back := by
  induction front with
  | nil => exact dropWhile_cons_of_neg (by rw [h]; decide)
  | cons b front ih =>
    rw [cons_append, dropWhile_cons, dropWhile_cons, ih]
    split <;> rfl

/-- What is skipped are characters of ASCII. -/
theorem lt_of_skipsBlank {b : Byte} (h : skipsBlank b = true) : b.toNat < 128 := by
  simp only [skipsBlank, Bool.or_eq_true, beq_iff_eq] at h
  rcases h with (rfl | rfl) | rfl <;> decide

theorem skipsBlank_of_skipsSpace {b : Byte} (h : skipsSpace b = true) : skipsBlank b = true :=
  Bool.or_eq_true_iff.mpr (.inl h)

theorem isUtf8_dropWhile (hskip : ∀ b, skip b = true → b.toNat < 128)
    {bytes : Bytes} (h : IsUtf8 bytes) : IsUtf8 (bytes.dropWhile skip) := by
  induction bytes with
  | nil => exact h
  | cons b bytes ih =>
    rw [dropWhile_cons]
    split
    · next hb => exact ih (@isUtf8_split b (hskip b hb) [] bytes h).2
    · exact h

theorem isUtf8_rdropWhile (h : IsUtf8 value) : IsUtf8 (value.rdropWhile isBlank) := by
  induction value using List.reverseRecOn with
  | nil => exact h
  | append_singleton value b ih =>
    rw [rdropWhile_concat]
    split
    · next hb =>
      have hascii : b.toNat < 128 := by
        simp only [isBlank, Bool.or_eq_true, beq_iff_eq] at hb
        rcases hb with rfl | rfl <;> decide
      exact ih (isUtf8_split hascii h).1
    · exact h

/-- A string is cut into strings. -/
theorem isUtf8_scanPairs (hskip : ∀ b, skip b = true → b.toNat < 128) (h : IsUtf8 value) :
    ∀ pair ∈ scanPairs skip value, IsUtf8 pair.1 ∧ IsUtf8 pair.2 := by
  induction value using scanPairs.induct skip with
  | case1 value hsplit =>
    rw [scanPairs_eq, hsplit]
    exact forall_mem_nil _
  | case2 value name rest hsplit ih =>
    have hdropped := isUtf8_dropWhile hskip h
    rw [(splitAtByte_eq_some_iff.mp hsplit).1] at hdropped
    obtain ⟨hname, hrest⟩ := isUtf8_split (by decide) hdropped
    have hhead : ∀ b ∈ (rest.dropWhile (· ≠ semicolon)).head?, isContinuation b = false := by
      intro b hb
      have hstop := head?_dropWhile_not (· ≠ semicolon) rest
      rw [hb] at hstop
      rw [show b = semicolon by simpa using hstop]
      rfl
    rw [← takeWhile_append_dropWhile (p := (· ≠ semicolon)) (l := rest)] at hrest
    obtain ⟨hvalue, hmore⟩ := isUtf8_append hhead hrest
    rw [scanPairs_eq, hsplit]
    exact forall_mem_cons.mpr ⟨⟨hname, hvalue⟩, ih hmore⟩

/-! ## The last value of a name -/

def lastValue (key : Bytes) (pairs : List (Bytes × Bytes)) : Option Bytes :=
  (valuesOf key pairs).getLast?

theorem lastValue_cons (key : Bytes) (pair : Bytes × Bytes) (pairs : List (Bytes × Bytes)) :
    lastValue key (pair :: pairs) =
      (lastValue key pairs).or (if pair.1 = key then some pair.2 else none) := by
  rw [lastValue, Grouping.valuesOf_cons, getLast?_append]
  split
  · rfl
  · rfl

theorem exists_lastValue {pair : Bytes × Bytes} (h : pair ∈ pairs) :
    ∃ value, lastValue pair.1 pairs = some value := by
  have hmem : pair.2 ∈ valuesOf pair.1 pairs := mem_filterMap.mpr ⟨pair, h, if_pos rfl⟩
  exact ⟨_, getLast?_eq_some_getLast (ne_nil_of_mem hmem)⟩

theorem mem_of_lastValue {key : Bytes}
    (h : lastValue key pairs = some value) : (key, value) ∈ pairs := by
  obtain ⟨pair, hpair, hvalue⟩ := mem_filterMap.mp (mem_of_getLast? h)
  split at hvalue
  · next heq =>
    cases hvalue
    exact heq ▸ hpair
  · cases hvalue

theorem lastValue_of_nodup {pair : Bytes × Bytes}
    (hnodup : (pairs.map Prod.fst).Nodup) (h : pair ∈ pairs) :
    lastValue pair.1 pairs = some pair.2 := by
  obtain ⟨value, hvalue⟩ := exists_lastValue h
  have hsame : (pair.1, value) = pair :=
    inj_on_of_nodup_map hnodup (mem_of_lastValue hvalue) h rfl
  rw [hvalue, ← hsame]

theorem foldlM_lastValue {m : Type → Type*} [Monad m] [LawfulMonad m] {S : Type} {E N : Type*}
    {step : S → Bytes × Bytes → m S} (look : S → N → Option E) (key : N → Bytes)
    (read : Bytes → Option E)
    (hstep : ∀ pair ∈ pairs, ∀ state, ∃ next, step state pair = pure next ∧
      ∀ n, look next n = if pair.1 = key n then read pair.2 else look state n) (state : S) :
    ∃ result, pairs.foldlM step state = pure result ∧
      ∀ n, look result n = (lastValue (key n) pairs).elim (look state n) read := by
  induction pairs generalizing state with
  | nil => exact ⟨state, rfl, fun n => rfl⟩
  | cons pair pairs ih =>
    obtain ⟨hpair, hmore⟩ := forall_mem_cons.mp hstep
    obtain ⟨next, hnext, hlook⟩ := hpair _
    obtain ⟨result, hresult, hlast⟩ := ih hmore _
    refine ⟨result, by rw [foldlM_cons, hnext, pure_bind, hresult], fun n => ?_⟩
    rw [hlast, lastValue_cons]
    cases lastValue (key n) pairs with
    | some value => rfl
    | none =>
      rw [elim_none, hlook, none_or]
      split <;> rfl

theorem pyUnicode_eq_some_iff {bytes : Bytes} {text : String} :
    pyUnicode bytes = some text ↔ nameBytes text = bytes := by
  rw [pyUnicode, String.fromUTF8?]
  constructor
  · intro h
    split at h
    · cases h
      rfl
    · cases h
  · rintro rfl
    have hbytes : (⟨(nameBytes text).toArray⟩ : ByteArray) = text.toByteArray := rfl
    rw [dif_pos]
    rfl

theorem nameBytes_inj {left right : Name} : nameBytes left = nameBytes right ↔ left = right := by
  refine ⟨fun h => ?_, congrArg _⟩
  have hleft := pyUnicode_eq_some_iff.mpr h
  rw [pyUnicode_eq_some_iff.mpr rfl] at hleft
  exact (Option.some.inj hleft).symm

def trimmed (pair : Bytes × Bytes) : Bytes × Bytes := (pair.1, pair.2.rdropWhile isBlank)

/-- The dictionary has the last value of every name. -/
theorem parseCookieHeader_spec {header : Bytes} (h : IsUtf8 header) :
    ∃ dict, parseCookieHeader header = some dict ∧ ∀ name,
      dict name = (lastValue (nameBytes name) ((scanPairs skipsBlank header).map trimmed)).bind
        pyUnicode := by
  have hstep : ∀ pair ∈ (scanPairs skipsBlank header).map trimmed, ∀ state : Kwargs String,
      ∃ next, (do
        let key ← pyUnicode pair.1
        let val ← pyUnicode pair.2
        return state.set key val : Option (Kwargs String)) = pure next ∧
        ∀ name, next name = if pair.1 = nameBytes name then pyUnicode pair.2 else state name := by
    refine forall_mem_map.mpr fun pair hpair state => ?_
    obtain ⟨hname, hvalue⟩ := isUtf8_scanPairs (fun _ => lt_of_skipsBlank) h _ hpair
    obtain ⟨key, hkey⟩ := (exists_pyUnicode_iff _).mpr hname
    obtain ⟨val, hval⟩ := (exists_pyUnicode_iff _).mpr (isUtf8_rdropWhile hvalue)
    rw [trimmed, hkey, hval]
    refine ⟨_, rfl, fun name => ?_⟩
    rw [Kwargs.set_apply, ← pyUnicode_eq_some_iff.mp hkey]
    simp [nameBytes_inj, eq_comm]
  obtain ⟨dict, hdict, hlook⟩ := foldlM_lastValue _ _ _ hstep
    _
  refine ⟨dict, ?_, fun name => ?_⟩
  · rw [foldlM_map] at hdict
    exact hdict
  · rw [hlook]
    cases lastValue (nameBytes name) ((scanPairs skipsBlank header).map trimmed) <;> rfl

theorem fieldName_of_cookieMap {spec : FastRouteSpec} {name : Bytes} {fs : FieldSpec}
    (h : spec.cookieMap name = some fs) : nameBytes fs.fieldName = name := by
  have hfound : (spec.cookieSpecs.reverse.find? fun fs => nameBytes fs.fieldName == name) =
      some fs := h
  have hkey := find?_some hfound
  exact beq_iff_eq.mp hkey

theorem cookieLoop_spec (spec : FastRouteSpec) {header : Bytes} (h : IsUtf8 header)
    (kwargs : Kwargs Value) :
    ∃ result, cookieLoop spec header kwargs = .ok result ∧ ∀ fs,
      spec.cookieMap (nameBytes fs.fieldName) = some fs →
        result fs.fieldName = (lastValue (nameBytes fs.fieldName) (cookiePairs header)).elim
          (kwargs fs.fieldName) fun value => (pyUnicode value).map Value.text := by
  have hstep : ∀ pair ∈ cookiePairs header, ∀ state : Kwargs Value,
      ∃ next, cookieStep spec state pair = pure next ∧
        ∀ declared : {fs : FieldSpec // spec.cookieMap (nameBytes fs.fieldName) = some fs},
          next declared.1.fieldName = if pair.1 = nameBytes declared.1.fieldName then
            (pyUnicode pair.2).map Value.text else state declared.1.fieldName := by
    intro pair hpair state
    rw [cookiePairs_eq_scanPairs] at hpair
    obtain ⟨-, hvalue⟩ :=
      isUtf8_scanPairs (fun _ hb => lt_of_skipsBlank (skipsBlank_of_skipsSpace hb)) h _ hpair
    obtain ⟨val, hval⟩ := (exists_pyUnicode_iff _).mpr hvalue
    rw [cookieStep]
    cases hmap : spec.cookieMap pair.1 with
    | none =>
      refine ⟨state, rfl, fun declared => (if_neg fun heq => ?_).symm⟩
      rw [heq, declared.2] at hmap
      cases hmap
    | some fs =>
      simp only [hval]
      refine ⟨_, rfl, fun declared => ?_⟩
      rw [Kwargs.set_apply, ← fieldName_of_cookieMap hmap]
      simp only [nameBytes_inj, eq_comm]
      rfl
  obtain ⟨result, hresult, hlook⟩ := foldlM_lastValue
    (fun state (declared : {fs : FieldSpec // spec.cookieMap (nameBytes _) = some _}) =>
      state declared.1.fieldName)
    _ (fun value => (pyUnicode value).map Value.text)
    hstep kwargs
  exact ⟨result, hresult, fun fs hdeclared => hlook ⟨fs, hdeclared⟩⟩

/-! ## Agreement on a header -/

theorem scanPairs_skipsBlank (value : Bytes) :
    scanPairs skipsBlank value =
      (scanPairs skipsSpace value).map fun pair => (pair.1.dropWhile skipsBlank, pair.2) := by
  induction value using scanPairs.induct skipsSpace with
  | case1 value hsplit =>
    have hnone := splitAtByte_eq_none_iff.mp hsplit
    have hblank : splitAtByte equals (value.dropWhile skipsBlank) = none := by
      rw [← dropWhile_dropWhile (fun _ => skipsBlank_of_skipsSpace) _]
      exact splitAtByte_none fun hmem => hnone (dropWhile_subset _ hmem)
    rw [scanPairs_eq, scanPairs_eq, hsplit, hblank]
    rfl
  | case2 value name rest hsplit ih =>
    obtain ⟨hvalue, hname⟩ := splitAtByte_eq_some_iff.mp hsplit
    have hblank : splitAtByte equals (value.dropWhile skipsBlank) =
        some (name.dropWhile skipsBlank, rest) := by
      rw [← dropWhile_dropWhile (fun _ => skipsBlank_of_skipsSpace) _, hvalue,
        dropWhile_append_stop rfl]
      exact splitAtByte_append (fun hmem => hname (dropWhile_subset _ hmem)) _
    rw [scanPairs_eq, scanPairs_eq, hsplit, hblank]
    exact congrArg _ ih

theorem head_of_scanPairs (value : Bytes) :
    ∀ pair ∈ scanPairs skipsSpace value, ∀ b ∈ pair.1.head?, skipsSpace b = false := by
  induction value using scanPairs.induct skipsSpace with
  | case1 value hsplit =>
    rw [scanPairs_eq, hsplit]
    exact forall_mem_nil _
  | case2 value name rest hsplit ih =>
    rw [scanPairs_eq, hsplit]
    refine forall_mem_cons.mpr ⟨fun b hb => ?_, ih⟩
    obtain ⟨tail, rfl⟩ := head?_eq_some_iff.mp hb
    have hhead := head?_dropWhile_not skipsSpace value
    rw [(splitAtByte_eq_some_iff.mp hsplit).1] at hhead
    exact Bool.eq_false_iff.mpr (by simpa using hhead)

theorem lastValue_map (f : Bytes → Bytes) (key : Bytes) (pairs : List (Bytes × Bytes)) :
    lastValue key (pairs.map fun pair => (pair.1, f pair.2)) = (lastValue key pairs).map f := by
  induction pairs with
  | nil => rfl
  | cons pair pairs ih =>
    rw [map_cons, lastValue_cons, lastValue_cons, ih]
    cases lastValue key pairs with
    | some value => rfl
    | none => split <;> rfl

def cookieField (name : Name) : FieldSpec := { fieldName := name, aliasName := [] }

def cookieSpec (name : Name) : FastRouteSpec where
  cookieSpecs := [cookieField name]

theorem cookieMap_cookieSpec (name : Name) :
    (cookieSpec name).cookieMap (nameBytes (cookieField name).fieldName) =
      some (cookieField name) := by
  simp [FastRouteSpec.cookieMap, lookupField, cookieSpec]

theorem cookiesAgree_iff {header : Bytes} (h : IsUtf8 header) :
    CookiesAgree header ↔ ∀ name value, lastValue name (cookiePairs header) = some value →
      name.head? ≠ some tab ∧ value.rdropWhile isBlank = value := by
  obtain ⟨dict, hdict, hlook⟩ := parseCookieHeader_spec h
  have hpairs := isUtf8_scanPairs (fun _ hb => lt_of_skipsBlank (skipsBlank_of_skipsSpace hb)) h
  rw [← cookiePairs_eq_scanPairs] at hpairs
  rw [scanPairs_skipsBlank, ← cookiePairs_eq_scanPairs, map_map] at hlook
  constructor
  · rintro ⟨found, hfound, hagree⟩ name value hlast
    rw [hdict] at hfound
    cases hfound
    have hmem := mem_of_lastValue hlast
    obtain ⟨key, hkey⟩ := (exists_pyUnicode_iff _).mpr (hpairs _ hmem).1
    obtain ⟨val, hval⟩ := (exists_pyUnicode_iff _).mpr (hpairs _ hmem).2
    have hname := pyUnicode_eq_some_iff.mp hkey
    have hdeclared := cookieMap_cookieSpec key
    obtain ⟨result, hresult, hsame⟩ := hagree _ _ _ hdeclared
    obtain ⟨loop, hloop, hspec⟩ := cookieLoop_spec _ h Kwargs.empty
    rw [hloop] at hresult
    cases hresult
    have hset := hspec _ hdeclared
    have hfield : nameBytes (cookieField key).fieldName = name := hname
    rw [hfield, hlast, elim_some, hval, hsame, hlook, hfield] at hset
    -- The dictionary has the same value, which it stripped, for a name that it stripped.
    have hread : lastValue name ((cookiePairs header).map
        (trimmed ∘ fun pair => (pair.1.dropWhile skipsBlank, pair.2))) = some value := by
      cases hfound : lastValue name ((cookiePairs header).map
          (trimmed ∘ fun pair => (pair.1.dropWhile skipsBlank, pair.2))) with
      | none =>
        rw [hfound] at hset
        cases hset
      | some read =>
        rw [hfound, bind_some] at hset
        cases hread : pyUnicode read with
        | none =>
          rw [hread] at hset
          cases hset
        | some text =>
          rw [hread] at hset
          cases hset
          rw [← pyUnicode_eq_some_iff.mp hread, pyUnicode_eq_some_iff.mp hval]
    obtain ⟨pair, -, heq⟩ := mem_map.mp (mem_of_lastValue hread)
    cases heq
    refine ⟨fun htab => ?_, rdropWhile_idempotent _ _⟩
    have hhead := head?_dropWhile_not skipsBlank pair.1
    rw [htab] at hhead
    exact absurd hhead (by decide)
  · intro hcond
    have hstrip : (cookiePairs header).map
        (trimmed ∘ fun pair => (pair.1.dropWhile skipsBlank, pair.2)) =
        (cookiePairs header).map fun pair => (pair.1, pair.2.rdropWhile isBlank) := by
      refine map_congr_left fun pair hpair => ?_
      obtain ⟨value, hlast⟩ := exists_lastValue hpair
      have htab := (hcond _ _ hlast).1
      rw [cookiePairs_eq_scanPairs] at hpair
      have hhead := head_of_scanPairs _ _ hpair
      have hskip : pair.1.dropWhile skipsBlank = pair.1 := by
        cases hname : pair.1 with
        | nil => rfl
        | cons b name =>
          rw [hname] at htab hhead
          have hb : skipsBlank b = false := Bool.or_eq_false_iff.mpr
            ⟨hhead b rfl, beq_eq_false_iff_ne.mpr fun heq => htab (congrArg _ heq)⟩
          exact dropWhile_cons_of_neg (Bool.eq_false_iff.mp hb)
      rw [Function.comp_apply, trimmed, hskip]
    have hsame (name : Bytes) : lastValue name ((cookiePairs header).map
        (trimmed ∘ fun pair => (pair.1.dropWhile skipsBlank, pair.2))) =
        lastValue name (cookiePairs header) := by
      rw [hstrip, lastValue_map]
      cases hlast : lastValue name (cookiePairs header) with
      | none => rfl
      | some value => rw [map_some, (hcond _ _ hlast).2]
    refine ⟨dict, hdict, fun spec kwargs fs hdeclared => ?_⟩
    obtain ⟨result, hresult, hspec⟩ := cookieLoop_spec _ h _
    refine ⟨result, hresult, ?_⟩
    rw [hspec _ hdeclared, hlook, hsame]
    cases hlast : lastValue (nameBytes fs.fieldName) (cookiePairs header) with
    | none => rfl
    | some value =>
      obtain ⟨val, hval⟩ := (exists_pyUnicode_iff _).mpr (hpairs _ (mem_of_lastValue hlast)).2
      rw [elim_some, bind_some, hval]
      rfl

/-! ## Agreement on cookies -/

def tailText (items : List CookieSegment) : Bytes :=
  items.flatMap fun item => semicolon :: item.text

theorem tailText_cons (item : CookieSegment) (items : List CookieSegment) :
    tailText (item :: items) = semicolon :: (item.text ++ tailText items) := rfl

theorem semicolon_headerOf (item : CookieSegment) (items : List CookieSegment) :
    semicolon :: headerOf (item :: items) = tailText (item :: items) := by
  induction items generalizing item with
  | nil =>
    rw [headerOf, map_singleton, intercalate_singleton, tailText_cons]
    exact congrArg _ (append_nil _).symm
  | cons next items ih =>
    rw [tailText_cons, ← ih, headerOf, headerOf, map_cons, map_cons,
      intercalate_cons_cons, append_assoc]
    rfl

theorem scanPairs_append (h : ∀ b ∈ front, skip b = true)
    (value : Bytes) : scanPairs skip (front ++ value) = scanPairs skip value := by
  rw [scanPairs_eq, scanPairs_eq, dropWhile_append_of_pos h]

/-- What is read behind a text that has no `=`. -/
def scanItems (skip : Byte → Bool) : Bytes → List CookieSegment → List (Bytes × Bytes)
  | _, [] => []
  | front, .bare text :: items => scanItems skip (front ++ semicolon :: text) items
  | front, .pair before name value behind :: items =>
    ((front ++ semicolon :: (List.replicate before space ++ name)).dropWhile skip,
      value ++ List.replicate behind space) :: scanItems skip [] items

theorem scanPairs_items (hskip : skip equals = false) (hitems : ∀ item ∈ items, item.WellFormed)
    (hfront : equals ∉ front) :
    scanPairs skip (front ++ tailText items) = scanItems skip front items := by
  induction items generalizing front with
  | nil =>
    have hnone : splitAtByte equals ((front ++ tailText []).dropWhile skip) = none := by
      refine splitAtByte_none fun hmem => hfront ?_
      rw [tailText, flatMap_nil, append_nil] at hmem
      exact dropWhile_subset _ hmem
    rw [scanPairs_eq, hnone]
    rfl
  | cons item items ih =>
    obtain ⟨hitem, hmore⟩ := forall_mem_cons.mp hitems
    rw [tailText_cons]
    cases item with
    | bare text =>
      have hnext : equals ∉ front ++ semicolon :: text := by
        rw [mem_append, mem_cons]
        rintro (hmem | hmem | hmem)
        · exact hfront hmem
        · exact absurd hmem (by decide)
        · exact hitem.1 hmem
      rw [scanItems, ← ih hmore hnext, append_assoc]
      rfl
    | pair before name value behind =>
      obtain ⟨hname, hvalue, -⟩ := hitem
      have hbefore : equals ∉ front ++ semicolon :: (List.replicate before space ++ name) := by
        rw [mem_append, mem_cons, mem_append]
        rintro (hmem | hmem | hmem | hmem)
        · exact hfront hmem
        · exact absurd hmem (by decide)
        · exact absurd (eq_of_mem_replicate hmem) (by decide)
        · exact (hname _ hmem).1 rfl
      have hsemicolon : ∀ b ∈ value ++ List.replicate behind space,
          decide (b ≠ semicolon) = true := by
        intro b hb
        rw [decide_eq_true_eq]
        rintro rfl
        rcases mem_append.mp hb with hmem | hmem
        · exact hvalue hmem
        · exact absurd (eq_of_mem_replicate hmem) (by decide)
      have htext : front ++ semicolon :: ((CookieSegment.pair before name value behind).text ++
          tailText items) = (front ++ semicolon :: (List.replicate before space ++ name)) ++
            equals :: ((value ++ List.replicate behind space) ++ tailText items) := by
        simp [CookieSegment.text]
      have hsplit : splitAtByte equals ((front ++ semicolon ::
          ((CookieSegment.pair before name value behind).text ++ tailText items)).dropWhile skip) =
          some ((front ++ semicolon :: (List.replicate before space ++ name)).dropWhile skip,
            (value ++ List.replicate behind space) ++ tailText items) := by
        rw [htext, dropWhile_append_stop hskip]
        exact splitAtByte_append (fun hmem => hbefore (dropWhile_subset _ hmem)) _
      have hrest : (tailText items).takeWhile (· ≠ semicolon) = [] ∧
          (tailText items).dropWhile (· ≠ semicolon) = tailText items := by
        cases items with
        | nil => exact ⟨rfl, rfl⟩
        | cons next items => exact ⟨rfl, rfl⟩
      rw [scanPairs_eq, hsplit, scanItems]
      simp only
      rw [takeWhile_append_of_pos hsemicolon, dropWhile_append_of_pos hsemicolon,
        hrest.1, hrest.2, append_nil]
      exact congrArg _ (ih hmore not_mem_nil)

/-- The bytes that both readers skip, with or without the tabulator. -/
structure Skips (skip : Byte → Bool) : Prop where
  blank : ∀ b, skip b = true → skipsBlank b = true
  space : skip space = true
  semicolon : skip semicolon = true

theorem skips_skipsBlank : Skips skipsBlank := ⟨fun _ h => h, rfl, rfl⟩

theorem skips_skipsSpace : Skips skipsSpace := ⟨fun _ => skipsBlank_of_skipsSpace, rfl, rfl⟩

/-- The rest of a segment without `=` stands in the name. -/
theorem strip_dirty (hfront : ¬ ∀ b ∈ front, skip b = true) (rest : Bytes) :
    semicolon ∈ (front ++ semicolon :: rest).dropWhile skip := by
  have hne : (front.dropWhile skip).isEmpty = false := by
    rw [isEmpty_eq_false_iff]
    exact fun hnil => hfront (dropWhile_eq_nil_iff.mp hnil)
  rw [dropWhile_append, hne]
  exact mem_append_right _ mem_cons_self

def readSegment : CookieSegment → Option (Bytes × Bytes)
  | .pair _ name value behind => some (name, value ++ List.replicate behind space)
  | .bare _ => none

section Skips

variable {skip : Byte → Bool} (h : Skips skip)

include h

theorem Skips.equals : skip equals = false := by
  by_contra hskip
  exact absurd (h.blank _ (by simpa using hskip)) (by decide)

theorem Skips.strip_clean {name : Bytes} (hfront : ∀ b ∈ front, skip b = true)
    (hname : ∀ b ∈ name, b ≠ Dispatch.equals ∧ skipsBlank b = false) (before : ℕ) :
    (front ++ Dispatch.semicolon :: (List.replicate before Dispatch.space ++ name)).dropWhile skip =
      name := by
  have hspaces : ∀ b ∈ List.replicate before Dispatch.space, skip b = true := by
    intro b hb
    rw [eq_of_mem_replicate hb, h.space]
  rw [dropWhile_append_of_pos hfront, dropWhile_cons_of_pos h.semicolon,
    dropWhile_append_of_pos hspaces]
  cases name with
  | nil => rfl
  | cons b name =>
    refine dropWhile_cons_of_neg fun hb => ?_
    have hblank := h.blank b hb
    rw [(hname b mem_cons_self).2] at hblank
    cases hblank

theorem Skips.scanItems_of_harmless
    (hitems : ∀ item ∈ items, item.WellFormed) (hharmless : Harmless skip items)
    (hfront : cookiesOf items ≠ [] → ∀ b ∈ front, skip b = true) :
    scanItems skip front items = items.filterMap readSegment := by
  induction items generalizing front with
  | nil => rfl
  | cons item items ih =>
    obtain ⟨hitem, hmore⟩ := forall_mem_cons.mp hitems
    cases item with
    | bare text =>
      refine ih hmore hharmless.2 fun hne => ?_
      refine forall_mem_append.mpr ⟨hfront hne, ?_⟩
      exact forall_mem_cons.mpr ⟨h.semicolon, hharmless.1 hne⟩
    | pair before name value behind =>
      have hclean := hfront (cons_ne_nil _ _)
      rw [scanItems, h.strip_clean hclean hitem.1, ih hmore hharmless fun _ => forall_mem_nil _]
      rfl

theorem Skips.names_scanItems (hitems : ∀ item ∈ items, item.WellFormed) (front : Bytes) :
    ∀ pair ∈ scanItems skip front items,
      pair.1 ∈ (cookiesOf items).map Prod.fst ∨ Dispatch.semicolon ∈ pair.1 := by
  induction items generalizing front with
  | nil => exact forall_mem_nil _
  | cons item items ih =>
    obtain ⟨hitem, hmore⟩ := forall_mem_cons.mp hitems
    cases item with
    | bare text => exact ih hmore _
    | pair before name value behind =>
      refine forall_mem_cons.mpr ⟨?_, fun pair hpair => ?_⟩
      · by_cases hclean : ∀ b ∈ front, skip b = true
        · exact .inl (by rw [h.strip_clean hclean hitem.1]; exact mem_cons_self)
        · exact .inr (strip_dirty hclean _)
      · exact (ih hmore [] _ hpair).imp (fun hmem => mem_cons_of_mem _ hmem) id

/-- A segment that is not harmless hides the cookie behind it. -/
theorem Skips.exists_hidden
    (hitems : ∀ item ∈ items, item.WellFormed) (hnodup : ((cookiesOf items).map Prod.fst).Nodup)
    (hnot : ¬ ((cookiesOf items ≠ [] → ∀ b ∈ front, skip b = true) ∧ Harmless skip items)) :
    ∃ cookie ∈ cookiesOf items, ∀ pair ∈ scanItems skip front items, pair.1 ≠ cookie.1 := by
  induction items generalizing front with
  | nil => exact absurd ⟨fun hne => absurd rfl hne, trivial⟩ hnot
  | cons item items ih =>
    obtain ⟨hitem, hmore⟩ := forall_mem_cons.mp hitems
    cases item with
    | bare text =>
      refine ih hmore hnodup fun hboth => hnot ⟨fun hne b hb => ?_, fun hne b hb => ?_, hboth.2⟩
      · exact hboth.1 hne b (mem_append_left _ hb)
      · exact hboth.1 hne b (mem_append_right _ (mem_cons_of_mem _ hb))
    | pair before name value behind =>
      obtain ⟨hname, hrest⟩ := nodup_cons.mp hnodup
      have hplain : Dispatch.semicolon ∉ name := fun hmem =>
        absurd (hitem.1 _ hmem).2 (by decide)
      by_cases hclean : ∀ b ∈ front, skip b = true
      · have hlater : ¬ ((cookiesOf items ≠ [] → ∀ b ∈ ([] : Bytes), skip b = true) ∧
            Harmless skip items) := fun hboth => hnot ⟨fun _ => hclean, hboth.2⟩
        obtain ⟨cookie, hcookie, hhidden⟩ := ih hmore hrest hlater
        refine ⟨cookie, mem_cons_of_mem _ hcookie, ?_⟩
        refine forall_mem_cons.mpr ⟨fun heq => hname ?_, hhidden⟩
        rw [h.strip_clean hclean hitem.1] at heq
        rw [heq]
        exact mem_map_of_mem hcookie
      · refine ⟨(name, value), mem_cons_self, ?_⟩
        refine forall_mem_cons.mpr ⟨fun heq => hplain ?_, fun pair hpair heq => ?_⟩
        · exact heq.subst (motive := (Dispatch.semicolon ∈ ·)) (strip_dirty hclean _)
        · rcases h.names_scanItems hmore [] pair hpair with hmem | hmem
          · exact hname (heq ▸ hmem)
          · exact hplain (heq.subst (motive := (Dispatch.semicolon ∈ ·)) hmem)

theorem Skips.scanPairs_headerOf (hitems : ∀ item ∈ items, item.WellFormed) :
    scanPairs skip (headerOf items) = scanItems skip [] items := by
  rw [← scanPairs_items h.equals hitems not_mem_nil]
  cases items with
  | nil => rfl
  | cons item items =>
    rw [nil_append, ← semicolon_headerOf]
    exact (scanPairs_append (forall_mem_singleton.mpr h.semicolon) _).symm

end Skips

theorem isUtf8_cookies (h : IsUtf8 (headerOf items)) :
    ∀ cookie ∈ cookiesOf items, IsUtf8 cookie.1 ∧ IsUtf8 cookie.2 := by
  have hspaces (count : ℕ) : ∀ b ∈ (List.replicate count space).head?, isContinuation b = false := by
    intro b hb
    rw [eq_of_mem_replicate (mem_of_mem_head? hb)]
    rfl
  have hitem {item : CookieSegment} (h : IsUtf8 item.text) :
      ∀ cookie ∈ item.cookie, IsUtf8 cookie.1 ∧ IsUtf8 cookie.2 := by
    cases item with
    | bare text => nofun
    | pair before name value behind =>
      rintro cookie ⟨⟩
      obtain ⟨hfront, hback⟩ := isUtf8_split (by decide) (show IsUtf8
        ((List.replicate before space ++ name) ++ equals :: (value ++ List.replicate behind space))
        by simpa [CookieSegment.text] using h)
      refine ⟨?_, (isUtf8_append (hspaces _) hback).1⟩
      have hname (count : ℕ) (h : IsUtf8 (List.replicate count space ++ name)) : IsUtf8 name := by
        induction count with
        | zero => exact h
        | succ count ih => exact ih (@isUtf8_split space (by decide) [] _ h).2
      exact hname _ hfront
  induction items with
  | nil => exact forall_mem_nil _
  | cons item items ih =>
    have hboth : IsUtf8 item.text ∧ ∀ cookie ∈ cookiesOf items, IsUtf8 cookie.1 ∧ IsUtf8 cookie.2 := by
      cases items with
      | nil =>
        rw [headerOf, map_singleton, intercalate_singleton] at h
        exact ⟨h, forall_mem_nil _⟩
      | cons next items =>
        obtain ⟨htext, hmore⟩ := isUtf8_split (by decide) h
        exact ⟨htext, ih hmore⟩
    intro cookie hcookie
    obtain ⟨found, hmem, hfound⟩ := mem_filterMap.mp hcookie
    rcases mem_cons.mp hmem with rfl | hmem
    · exact hitem hboth.1 _ hfound
    · exact hboth.2 cookie (mem_filterMap.mpr ⟨found, hmem, hfound⟩)

theorem rdropWhile_spaces (h : ∀ b ∈ value.getLast?, isBlank b = false) (count : ℕ) :
    (value ++ List.replicate count space).rdropWhile isBlank = value := by
  induction count with
  | zero =>
    rw [replicate_zero, append_nil, rdropWhile_eq_self_iff]
    intro hne
    rw [h _ (getLast?_eq_some_getLast hne)]
    decide
  | succ count ih =>
    rw [replicate_succ', ← append_assoc, rdropWhile_concat_pos _ _ _ rfl]
    exact ih

section Items

variable {items : List CookieSegment} (hitems : ∀ item ∈ items, item.WellFormed)
  (hnodup : ((cookiesOf items).map Prod.fst).Nodup)

include hitems hnodup

/-- Where every cookie is found, no segment hides one. -/
theorem harmless_of_mem (h : Skips skip)
    (hfound : ∀ cookie ∈ cookiesOf items, ∃ value, (cookie.1, value) ∈
      scanPairs skip (headerOf items)) : Harmless skip items := by
  by_contra hnot
  obtain ⟨cookie, hcookie, hhidden⟩ :=
    @Skips.exists_hidden [] items skip h hitems hnodup fun hboth => hnot hboth.2
  obtain ⟨value, hvalue⟩ := hfound _ hcookie
  rw [h.scanPairs_headerOf hitems] at hvalue
  exact hhidden _ hvalue rfl

theorem mapsCookies_iff (hutf8 : IsUtf8 (headerOf items)) :
    MapsCookies items ↔ Harmless skipsBlank items := by
  obtain ⟨dict, hdict, hlook⟩ := parseCookieHeader_spec hutf8
  constructor
  · rintro ⟨found, hfound, hmaps⟩
    rw [hdict] at hfound
    cases hfound
    refine harmless_of_mem hitems hnodup skips_skipsBlank fun cookie hcookie => ?_
    obtain ⟨name, value, hname, -, hset⟩ := hmaps _ hcookie
    rw [hlook, pyUnicode_eq_some_iff.mp hname] at hset
    obtain ⟨read, hlast, -⟩ := bind_eq_some_iff.mp hset
    obtain ⟨pair, hpair, heq⟩ := mem_map.mp (mem_of_lastValue hlast)
    exact ⟨pair.2, by rwa [← (Prod.mk.inj heq).1]⟩
  · intro hharmless
    have hscan : (scanPairs skipsBlank (headerOf items)).map trimmed = cookiesOf items := by
      rw [skips_skipsBlank.scanPairs_headerOf hitems, skips_skipsBlank.scanItems_of_harmless hitems
        hharmless fun _ => forall_mem_nil _, map_filterMap, cookiesOf]
      refine filterMap_congr fun item hitem => ?_
      cases item with
      | bare text => rfl
      | pair before name value behind =>
        rw [readSegment, map_some, trimmed, rdropWhile_spaces (hitems _ hitem).2.2]
        rfl
    refine ⟨dict, hdict, fun cookie hcookie => ?_⟩
    obtain ⟨hname, hvalue⟩ := isUtf8_cookies hutf8 _ hcookie
    obtain ⟨name, hname⟩ := (exists_pyUnicode_iff _).mpr hname
    obtain ⟨value, hvalue⟩ := (exists_pyUnicode_iff _).mpr hvalue
    refine ⟨name, value, hname, hvalue, ?_⟩
    rw [hlook, hscan, pyUnicode_eq_some_iff.mp hname, lastValue_of_nodup hnodup hcookie,
      bind_some, hvalue]

theorem assignsCookies_iff (hutf8 : IsUtf8 (headerOf items)) :
    AssignsCookies items ↔ Harmless skipsSpace items ∧ Tight items := by
  have hutf8Cookies := isUtf8_cookies hutf8
  have hscan (hharmless : Harmless skipsSpace items) :
      scanPairs skipsSpace (headerOf items) = items.filterMap readSegment := by
    rw [skips_skipsSpace.scanPairs_headerOf hitems]
    exact skips_skipsSpace.scanItems_of_harmless hitems hharmless fun _ => forall_mem_nil _
  constructor
  · intro hassigns
    -- The loop finds each cookie, with the value that it has.
    have hfound : ∀ cookie ∈ cookiesOf items, cookie ∈ scanPairs skipsSpace (headerOf items) := by
      intro cookie hcookie
      obtain ⟨key, hkey⟩ := (exists_pyUnicode_iff _).mpr (hutf8Cookies _ hcookie).1
      have hname : nameBytes (cookieField key).fieldName = cookie.1 := pyUnicode_eq_some_iff.mp hkey
      have hdeclared := cookieMap_cookieSpec key
      obtain ⟨result, value, hresult, hvalue, hset⟩ :=
        hassigns _ _ _ hdeclared _ hcookie hname.symm
      obtain ⟨loop, hloop, hspec⟩ := cookieLoop_spec _ hutf8 Kwargs.empty
      rw [hloop] at hresult
      cases hresult
      rw [hspec _ hdeclared, hname] at hset
      cases hlast : lastValue cookie.1 (cookiePairs (headerOf items)) with
      | none =>
        rw [hlast] at hset
        cases hset
      | some read =>
        rw [hlast, elim_some] at hset
        obtain ⟨text, hread, heq⟩ := map_eq_some_iff.mp hset
        cases heq
        rw [← cookiePairs_eq_scanPairs]
        have hsame : read = cookie.2 := by
          rw [← pyUnicode_eq_some_iff.mp hread, pyUnicode_eq_some_iff.mp hvalue]
        have hmem := mem_of_lastValue hlast
        rwa [hsame] at hmem
    have hharmless := harmless_of_mem hitems hnodup skips_skipsSpace
      fun cookie hcookie => ⟨cookie.2, hfound _ hcookie⟩
    refine ⟨hharmless, fun before name value behind hitem => ?_⟩
    rw [hscan hharmless] at hfound
    have hread : (name, value ++ List.replicate behind space) ∈ items.filterMap readSegment :=
      mem_filterMap.mpr ⟨_, hitem, rfl⟩
    have hself : (name, value) ∈ items.filterMap readSegment :=
      hfound _ (mem_filterMap.mpr ⟨_, hitem, rfl⟩)
    have hnames : (items.filterMap readSegment).map Prod.fst = (cookiesOf items).map Prod.fst := by
      rw [cookiesOf, map_filterMap, map_filterMap]
      refine filterMap_congr fun item _ => ?_
      cases item <;> rfl
    have hsame := inj_on_of_nodup_map (hnames ▸ hnodup) hread hself rfl
    have hlength := congrArg List.length (Prod.mk.inj hsame).2
    rw [length_append, length_replicate] at hlength
    omega
  · rintro ⟨hharmless, htight⟩ spec kwargs fs hdeclared cookie hcookie hname
    have hpairs : cookiePairs (headerOf items) = cookiesOf items := by
      rw [cookiePairs_eq_scanPairs, hscan hharmless, cookiesOf]
      refine filterMap_congr fun item hitem => ?_
      cases item with
      | bare text => rfl
      | pair before name value behind =>
        rw [readSegment, htight _ _ _ _ hitem, replicate_zero, append_nil]
        rfl
    obtain ⟨value, hvalue⟩ := (exists_pyUnicode_iff _).mpr (hutf8Cookies _ hcookie).2
    obtain ⟨result, hresult, hspec⟩ := cookieLoop_spec _ hutf8 _
    refine ⟨result, value, hresult, hvalue, ?_⟩
    rw [hspec _ hdeclared, hpairs, ← hname, lastValue_of_nodup hnodup hcookie, elim_some, hvalue]
    rfl

end Items

/-- Where the two readers of cookies find what was sent, and where they agree. -/
theorem cookieParsers_iff {items : List CookieSegment}
    (hitems : ∀ item ∈ items, item.WellFormed)
    (hnodup : ((cookiesOf items).map Prod.fst).Nodup) (hutf8 : IsUtf8 (headerOf items))
    {header : Bytes} (hheader : IsUtf8 header) :
    (MapsCookies items ↔ Harmless skipsBlank items) ∧
      (AssignsCookies items ↔ Harmless skipsSpace items ∧ Tight items) ∧
      (CookiesAgree header ↔ ∀ name value, lastValue name (cookiePairs header) = some value →
        name.head? ≠ some tab ∧ value.rdropWhile isBlank = value) :=
  ⟨mapsCookies_iff hitems hnodup hutf8, assignsCookies_iff hitems hnodup hutf8,
    cookiesAgree_iff hheader⟩

def themeItems : List CookieSegment :=
  [.pair 0 (ascii "theme") (ascii "dark") 0, .pair 1 (ascii "sid") (ascii "1") 0]

theorem cookieParsers_theme :
    (∀ item ∈ themeItems, item.WellFormed) ∧
      (MapsCookies themeItems ↔ Harmless skipsBlank themeItems) := by
  have hitems : ∀ item ∈ themeItems, item.WellFormed := by
    refine forall_mem_cons.mpr ⟨?_, forall_mem_singleton.mpr ?_⟩
    · exact ⟨by decide, by decide, by rintro b ⟨⟩; decide⟩
    · exact ⟨by decide, by decide, by rintro b ⟨⟩; decide⟩
  exact ⟨hitems, (cookieParsers_iff hitems (by decide) (by decide) (by decide :
    IsUtf8 (headerOf themeItems))).1⟩

def seenItems : List CookieSegment := [.bare (ascii "seen"), .pair 1 (ascii "sid") (ascii "1") 0]

theorem cookieParsers_seen :
    ¬ ∀ items : List CookieSegment, (∀ item ∈ items, item.WellFormed) →
      ((cookiesOf items).map Prod.fst).Nodup → IsUtf8 (headerOf items) →
        MapsCookies items ∧ AssignsCookies items := by
  intro h
  have hitems : ∀ item ∈ seenItems, item.WellFormed := by
    refine forall_mem_cons.mpr ⟨?_, forall_mem_singleton.mpr ?_⟩
    · exact ⟨by decide, by decide⟩
    · exact ⟨by decide, by decide, by rintro b ⟨⟩; decide⟩
  obtain ⟨hmaps, -⟩ := h _ hitems (by decide) (by decide)
  have hharmless := (mapsCookies_iff hitems (by decide) (by decide)).mp hmaps
  exact absurd (hharmless.1 (by decide) 115 (by decide)) (by decide)

end AstraApi.Dispatch
