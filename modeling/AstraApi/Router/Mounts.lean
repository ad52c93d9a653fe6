import AstraApi.Router.Agreement
import AstraApi.Router.RoutingBase

/-!
# Mounts below mounts

A mount finds its prefix by what its regular expression leaves behind it.  The root path
of the scope grows by one prefix at each level, and the next level takes it off the whole
path again.
-/

namespace AstraApi.Routing

open List
open Greedy

variable {E : Type*}

def rstripSlashes (path : Text) : Text := path.rdropWhile (· == slashChar)

def pathKey : Text := plainText "path"

/-- What `Mount.__init__` stores. -/
structure Mount (E : Type*) where
  given : Text
  routed : given = [] ∨ given.head? = some slashChar
  app : E
  pathRegex : PathRegex
  compiled : compilePath (rstripSlashes given ++ plainText "/\x7bpath:path\x7d") =
    some pathRegex.pieces

def Mount.path (mount : Mount E) : Text := rstripSlashes mount.given

def Mount.matches (mount : Mount E) (scope : Scope E) : Match × ChildScope E :=
  if scope.type = .http ∨ scope.type = .websocket then
    let routePath := getRoutePath scope
    match mount.pathRegex.groupdict routePath with
    | none => (.NONE, {})
    | some matchedParams =>
      -- the group `path` is there, it ends the pattern
      let remainingPath := slashChar :: (matchedParams.get pathKey).getD []
      let matchedPath := routePath.take (routePath.length - remainingPath.length)
      (.FULL,
        { endpoint := some mount.app
          pathParams :=
            some ((scope.pathParams.getD .empty).update (matchedParams.erase pathKey))
          appRootPath := some (scope.appRootPath.getD scope.root)
          rootPath := some (scope.root ++ matchedPath) })
  else (.NONE, {})

def Literal (path : Text) : Prop := ∀ part, part <:+ path → paramRegex part = none

instance (path : Text) : Decidable (Literal path) :=
  decidable_of_iff (∀ part ∈ path.tails, paramRegex part = none) (by
    simp only [mem_tails]
    rfl)

def Composes : Text → List (Mount E) → Text → Scope E → Prop
  | _, [], rest, scope => getRoutePath scope = rest
  | root, mount :: mounts, rest, scope =>
    (mount.matches scope).1 = .FULL ∧
      (scope.update (mount.matches scope).2).root = root ++ mount.path ∧
      Composes (root ++ mount.path) mounts rest (scope.update (mount.matches scope).2)

/-! ## The pattern of a mount -/

theorem name_append_slash (text rest : Text) :
    (text ++ slashChar :: rest).takeWhile isNamePart = text.takeWhile isNamePart ∧
      (text ++ slashChar :: rest).dropWhile isNamePart =
        text.dropWhile isNamePart ++ slashChar :: rest := by
  induction text with
  | nil => exact ⟨rfl, rfl⟩
  | cons c text ih =>
    cases hc : isNamePart c with
    | true =>
      rw [cons_append, takeWhile_cons_of_pos hc, takeWhile_cons_of_pos hc,
        dropWhile_cons_of_pos hc, dropWhile_cons_of_pos hc, ih.1]
      exact ⟨rfl, ih.2⟩
    | false =>
      have hnot : ¬ isNamePart c = true := by rw [hc]; exact Bool.false_ne_true
      rw [cons_append, takeWhile_cons_of_neg hnot, takeWhile_cons_of_neg hnot,
        dropWhile_cons_of_neg hnot, dropWhile_cons_of_neg hnot]
      exact ⟨rfl, rfl⟩

theorem identifier_append_slash (text rest : Text) :
    identifier (text ++ slashChar :: rest) =
      (identifier text).map fun found => (found.1, found.2 ++ slashChar :: rest) := by
  cases text with
  | nil => rfl
  | cons c text =>
    obtain ⟨htake, hdrop⟩ := name_append_slash text rest
    rw [cons_append, identifier, identifier]
    split
    · simp [htake, hdrop]
    · rfl

/-- A parameter does not reach over a `/`. -/
theorem paramRegex_append_slash (text rest : Text) :
    paramRegex (text ++ slashChar :: rest) = (paramRegex text).map fun found =>
        (found.1, found.2.1, found.2.2 ++ slashChar :: rest) := by
  cases text with
  | nil => rfl
  | cons c text =>
    rw [cons_append, paramRegex, paramRegex, identifier_append_slash]
    by_cases hc : c = openBraceChar
    · rw [if_pos hc, if_pos hc]
      cases identifier text with
      | none => rfl
      | some found =>
        obtain ⟨name, tail⟩ := found
        cases tail with
        | nil => rfl
        | cons d tail =>
          dsimp only [Option.map_some, cons_append]
          by_cases hclose : d = closeBraceChar
          · rw [if_pos hclose, if_pos hclose]
            rfl
          · rw [if_neg hclose, if_neg hclose, identifier_append_slash]
            by_cases hcolon : d = colonChar
            · rw [if_pos hcolon, if_pos hcolon]
              cases identifier tail with
              | none => rfl
              | some convertor =>
                obtain ⟨key, tail⟩ := convertor
                cases tail with
                | nil => rfl
                | cons e tail =>
                  dsimp only [Option.map_some, cons_append]
                  split <;> rfl
            · rw [if_neg hcolon, if_neg hcolon]
              rfl
    · rw [if_neg hc, if_neg hc]
      rfl

theorem findParams_literal {path : Text} (h : Literal path) (fuel : ℕ) (rest : Text) :
    findParams (path.length + fuel) (path ++ slashChar :: rest) =
      (findParams fuel (slashChar :: rest)).map (path.map Piece.text ++ ·) := by
  induction path with
  | nil =>
    rw [length_nil, Nat.zero_add, nil_append]
    exact Option.map_id'.symm
  | cons c path ih =>
    have hhere : paramRegex (c :: (path ++ slashChar :: rest)) = none := by
      have hmap := paramRegex_append_slash (c :: path) rest
      rw [h _ suffix_rfl] at hmap
      exact hmap
    have hrest : Literal path := fun part hpart => h _ (hpart.trans (suffix_cons c _))
    rw [length_cons, Nat.succ_add, cons_append, findParams, hhere]
    rw [ih hrest, Option.map_map]
    rfl

def pathName : Identifier where
  text := pathKey
  parts := all_eq_true.mp (by decide +kernel)

def mountTail : List Piece := [.text slashChar, .param pathName (some .path)]

theorem head?_rstripSlashes {given : Text} (h : given = [] ∨ given.head? = some slashChar)
    (rest : Text) : (rstripSlashes given ++ slashChar :: rest).head? = some slashChar := by
  cases hstrip : rstripSlashes given with
  | nil => rfl
  | cons c tail =>
    obtain ⟨dropped, hgiven⟩ := rdropWhile_prefix _ _
    rw [← rstripSlashes, hstrip] at hgiven
    rcases h with hnil | hhead
    · rw [hnil] at hgiven
      cases hgiven
    · rw [← hgiven] at hhead
      exact hhead

theorem Mount.pieces_eq (mount : Mount E) (hliteral : Literal mount.path) :
    mount.pathRegex.pieces = mount.path.map Piece.text ++ mountTail := by
  have htail : findParams 13 (plainText "/\x7bpath:path\x7d") = some mountTail := by
    decide +kernel
  have hfound : findParams (mount.path.length + 13)
      (mount.path ++ plainText "/\x7bpath:path\x7d") =
        some (mount.path.map Piece.text ++ mountTail) := by
    have hliteral' := findParams_literal hliteral 13 (plainText "\x7bpath:path\x7d")
    change _ = Option.map _ (findParams 13 (plainText "/\x7bpath:path\x7d")) at hliteral'
    exact hliteral'
  have hlength : (mount.path ++ plainText "/\x7bpath:path\x7d").length + 1 =
      mount.path.length + 13 := by
    rw [length_append]
    rfl
  have hhead : (mount.path ++ plainText "/\x7bpath:path\x7d").head? = some slashChar :=
    head?_rstripSlashes mount.routed _
  have hcompiled : compilePath (mount.path ++ plainText "/\x7bpath:path\x7d") = _ := mount.compiled
  rw [compilePath, hlength, hfound, hhead] at hcompiled
  dsimp only at hcompiled
  split at hcompiled
  · exact (Option.some.inj hcompiled).symm
  · cases hcompiled

/-! ## One mount -/

theorem regexMatch_literal (front : Text) (pieces : List Piece) (path : Text) :
    regexMatch (front.map Piece.text ++ pieces) (front ++ path) = regexMatch pieces path := by
  induction front with
  | nil => rfl
  | cons c front ih =>
    rw [map_cons, cons_append, cons_append, regexMatch_text]
    dsimp only
    rw [if_pos rfl, ih]

/-- `.*$` takes all, or all but a newline at the end. -/
theorem regexMatch_dot {rest : Text} {bound : List (Text × Text)}
    (h : regexMatch [.param pathName (some .path)] rest = some bound) :
    ∃ value, bound = [(pathKey, value)] ∧ (rest = value ∨ rest = value ++ [newline]) := by
  have hkeys := keys_regexMatch h
  obtain ⟨behind, hrest, hend⟩ := run_spells _ h
  cases bound with
  | nil => cases hkeys
  | cons entry bound =>
    obtain ⟨key, value⟩ := entry
    obtain ⟨hkey, htail⟩ := List.cons.inj hkeys
    have hkey : key = pathKey := hkey
    refine ⟨value, by rw [hkey, map_eq_nil_iff.mp htail], ?_⟩
    have hspell : rest = value ++ [] ++ behind := hrest
    rw [atDollar, Bool.or_eq_true, beq_iff_eq, beq_iff_eq] at hend
    rw [append_nil] at hspell
    rcases hend with rfl | rfl
    · exact Or.inl (hspell.trans (append_nil _))
    · exact Or.inr hspell

theorem Mount.matches_iff (mount : Mount E) (hliteral : Literal mount.path) {scope : Scope E}
    (htype : scope.type = .http ∨ scope.type = .websocket) {rest : Text}
    (hpath : getRoutePath scope = mount.path ++ slashChar :: rest) :
    (mount.matches scope).1 = .FULL ∧
        (scope.update (mount.matches scope).2).root = scope.root ++ mount.path ↔
      newline ∉ rest := by
  have hregex : regexMatch mount.pathRegex.pieces (mount.path ++ slashChar :: rest) =
      regexMatch [.param pathName (some .path)] rest := by
    rw [mount.pieces_eq hliteral, regexMatch_literal, mountTail, regexMatch_text]
    exact if_pos rfl
  have hdot : regexMatch [.param pathName (some .path)] rest = some [(pathKey, rest)] ↔
      newline ∉ rest := regexMatch_path_iff _ rfl _
  rw [Mount.matches, if_pos htype, hpath]
  dsimp only
  cases hfound : mount.pathRegex.groupdict (mount.path ++ slashChar :: rest) with
  | none =>
    rw [PathRegex.groupdict_eq_none_iff, hregex] at hfound
    rw [← hdot, hfound]
    simp
  | some found =>
    rw [PathRegex.groupdict_eq_some_iff, hregex] at hfound
    obtain ⟨value, hitems, hrest⟩ := regexMatch_dot hfound
    have hget : found.get pathKey = some value := by
      rw [Dict.get_eq_some_iff, hitems]
      exact mem_singleton_self _
    have hlength : (mount.path ++ slashChar :: rest).length - (slashChar :: value).length =
        mount.path.length + (rest.length - value.length) := by
      rw [length_append, length_cons, length_cons]
      rcases hrest with rfl | rfl
      · omega
      · rw [length_append]
        omega
    change Match.FULL = .FULL ∧ scope.root ++ (mount.path ++ slashChar :: rest).take
      ((mount.path ++ slashChar :: rest).length -
        (slashChar :: (found.get pathKey).getD []).length) = scope.root ++ mount.path ↔ _
    rw [hget, Option.getD_some, hlength, append_cancel_left_eq, and_iff_right rfl, ← hdot,
      hfound, hitems, Option.some.injEq, singleton_inj, Prod.mk.injEq, and_iff_right rfl]
    rcases hrest with rfl | rfl
    · rw [Nat.sub_self, Nat.add_zero, take_left]
      exact iff_of_true rfl rfl
    · -- the remainder is one short, so the slash counts as matched
      apply iff_of_false
      · intro h
        have := congrArg List.length h
        simp at this
      · intro h
        have := congrArg List.length h
        simp at this

/-! ## The chain -/

theorem getRoutePath_of_root {scope : Scope E} {rest : Text}
    (hpath : scope.path = scope.root ++ slashChar :: rest) :
    getRoutePath scope = slashChar :: rest := by
  rw [getRoutePath]
  split
  · rename_i hroot
    rw [hpath, hroot, nil_append]
  · rw [hpath, if_neg (by simp), if_neg (by simp), drop_left, if_pos]
    rw [getElem?_append_right le_rfl, Nat.sub_self]
    rfl

theorem Mount.path_head (mount : Mount E) (rest : Text) :
    ∃ tail, mount.path ++ slashChar :: rest = slashChar :: tail := by
  have hhead := head?_rstripSlashes mount.routed rest
  cases h : mount.path ++ slashChar :: rest with
  | nil => cases append_eq_nil_iff.mp h with
    | intro _ hcons => cases hcons
  | cons c tail =>
    rw [← Mount.path, h] at hhead
    exact ⟨tail, by rw [Option.some.inj hhead]⟩

theorem mounts_head (mounts : List (Mount E)) (rest : Text) :
    ∃ tail, mounts.flatMap Mount.path ++ slashChar :: rest = slashChar :: tail := by
  induction mounts with
  | nil => exact ⟨rest, rfl⟩
  | cons mount mounts ih =>
    obtain ⟨more, hmore⟩ := ih
    rw [flatMap_cons, append_assoc, hmore]
    exact mount.path_head _

/-- From any level on: the text behind the next mount has no newline. -/
theorem composes_iff {mounts : List (Mount E)} (hliteral : ∀ mount ∈ mounts, Literal mount.path)
    {scope : Scope E} (htype : scope.type = .http ∨ scope.type = .websocket) {rest : Text}
    (hpath : scope.path = scope.root ++ (mounts.flatMap Mount.path ++ slashChar :: rest)) :
    Composes scope.root mounts (slashChar :: rest) scope ↔
      mounts = [] ∨ newline ∉ mounts.tail.flatMap Mount.path ++ slashChar :: rest := by
  induction mounts generalizing scope with
  | nil => exact iff_of_true (getRoutePath_of_root hpath) (Or.inl rfl)
  | cons mount mounts ih =>
    obtain ⟨more, hmore⟩ := mounts_head _ _
    rw [flatMap_cons, append_assoc, hmore] at hpath
    obtain ⟨tail, htail⟩ := mount.path_head _
    have hroute : getRoutePath scope = mount.path ++ slashChar :: more := by
      rw [htail] at hpath ⊢
      exact getRoutePath_of_root hpath
    have hstep := mount.matches_iff (hliteral _ mem_cons_self) htype hroute
    have hnewline : newline ∉ mounts.flatMap Mount.path ++ slashChar :: rest ↔ newline ∉ more := by
      rw [hmore, mem_cons, not_or]
      exact and_iff_right (by decide)
    rw [Composes, ← and_assoc, hstep, tail_cons, hnewline, or_iff_right (cons_ne_nil _ _)]
    refine and_iff_left_of_imp fun hmore' => ?_
    have hroot := (hstep.mpr hmore').2
    have hdeeper : (scope.update (mount.matches scope).2).path =
        (scope.update (mount.matches scope).2).root ++
          (mounts.flatMap Mount.path ++ slashChar :: rest) := by
      rw [hroot, hmore, append_assoc]
      exact hpath
    have hnext : Composes (scope.update (mount.matches scope).2).root mounts
        (slashChar :: rest) (scope.update (mount.matches scope).2) ↔ _ :=
      ih (fun other hother => hliteral _ (mem_cons_of_mem _ hother)) htype hdeeper
    rw [← hroot, hnext]
    cases mounts with
    | nil => exact Or.inl rfl
    | cons inner mounts =>
      apply Or.inr
      intro hmem
      apply hnewline.mpr hmore'
      rw [flatMap_cons, append_assoc]
      exact mem_append_right _ hmem

/-- A chain of mounts composes exactly if no newline follows the outermost one. -/
theorem mounts_compose_iff (mounts : List (Mount E)) (scope : Scope E)
    (hliteral : ∀ mount ∈ mounts, Literal mount.path)
    (htype : scope.type = .http ∨ scope.type = .websocket) (hroot : scope.root = [])
    {rest : Text} (hrest : rest.head? = some slashChar)
    (hpath : scope.path = mounts.flatMap Mount.path ++ rest) :
    Composes [] mounts rest scope ↔
      mounts = [] ∨ newline ∉ mounts.tail.flatMap Mount.path ++ rest := by
  cases rest with
  | nil => cases hrest
  | cons c rest =>
    obtain rfl := Option.some.inj hrest
    rw [← nil_append (mounts.flatMap _ ++ slashChar :: rest), ← hroot] at hpath
    rw [← hroot]
    exact composes_iff hliteral htype hpath

def mountA : Mount Unit where
  given := plainText "/a/"
  routed := Or.inr rfl
  app := ()
  pathRegex := ⟨(plainText "/a").map Piece.text ++ mountTail, by decide +kernel⟩
  compiled := by decide +kernel

theorem mounts_compose_repeated :
    Composes [] [mountA, mountA] (plainText "/a/a") (requestScope (plainText "/a/a/a/a")) := by
  have hliteral : Literal mountA.path := by decide +kernel
  apply (mounts_compose_iff [mountA, mountA] _ _ (Or.inl rfl) rfl rfl (by decide +kernel)).mpr
  · exact Or.inr (by decide +kernel)
  · intro mount hmount
    simp only [mem_cons, not_mem_nil, or_false, or_self] at hmount
    rw [hmount]
    exact hliteral

theorem not_mounts_compose_newline :
    ¬ ∀ (mounts : List (Mount Unit)) (scope : Scope Unit), (∀ mount ∈ mounts, Literal mount.path) →
      scope.type = .http ∨ scope.type = .websocket → scope.root = [] →
      ∀ rest : Text, rest.head? = some slashChar →
      scope.path = mounts.flatMap Mount.path ++ rest → Composes [] mounts rest scope := by
  intro hall
  have hliteral : Literal mountA.path := by decide +kernel
  obtain ⟨-, hroot, -⟩ := hall [mountA] (requestScope (plainText "/a/b\n"))
    (by
      intro mount hmount
      rw [mem_singleton.mp hmount]
      exact hliteral)
    (Or.inl rfl) rfl (plainText "/b\n") rfl (by decide +kernel)
  revert hroot
  decide +kernel

end AstraApi.Routing
