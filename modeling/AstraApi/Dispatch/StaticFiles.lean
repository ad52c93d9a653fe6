import AstraApi.Lib.PosixPath
import AstraApi.Router.CompilePath

/-!
# Static files

The path of a request is joined to each directory.  That the result stays below the
directory is tested on texts: the normalised path has to start with the normalised
directory.
-/

namespace AstraApi.Files

open List
open PosixPath Routing

def dotChar : CodePoint := 46

/-- What `os.path.isfile` and `os.path.isdir` say. -/
structure FileSystem where
  isFile : Text → Bool
  isDir : Text → Bool

/-- What `StaticFiles.__init__` stores and the look-up reads. -/
structure StaticFiles where
  allDirectories : List Text
  html : Bool

inductive Response where
  | file (path : Text) (statusCode : ℕ) (method : Text)
  | plainText (content : Text) (statusCode : ℕ)
  deriving DecidableEq

def joinPath (directory path : Text) : Text := join slashChar directory path
def normalize (path : Text) : Text := normpath slashChar dotChar path

def indexHtml : Text := plainText "index.html"
def notFoundHtml : Text := plainText "404.html"

def findIn (fs : FileSystem) (html : Bool) (relPath directory : Text) : Option Text :=
  let fullPath := normalize (joinPath directory relPath)
  if ¬ normalize directory <+: fullPath then none
  else if fs.isFile fullPath then some fullPath
  else if html && fs.isDir fullPath then
    let index := joinPath fullPath indexHtml
    if fs.isFile index then some index else none
  else none

/-- What the second loop finds in one directory. -/
def notFoundIn (fs : FileSystem) (directory : Text) : Option Text :=
  let notFound := joinPath directory notFoundHtml
  if fs.isFile notFound then some notFound else none

def lookup (app : StaticFiles) (fs : FileSystem) (relPath method : Text) : Response :=
  match app.allDirectories.findSome? (findIn fs app.html relPath) with
  | some path => .file path 200 method
  | none =>
    match if app.html then app.allDirectories.findSome? (notFoundIn fs) else none with
    | some path => .file path 404 method
    | none => .plainText (plainText "Not Found") 404

def relativePath (path : Text) : Text := path.dropWhile (· == slashChar)

def call (app : StaticFiles) (fs : FileSystem) (path method : Option Text) : Response :=
  lookup app fs (relativePath (path.getD [slashChar])) (method.getD (plainText "GET"))

/-- Every file that is served lies in one of the directories. -/
def StaysInside (app : StaticFiles) (fs : FileSystem) (path method : Option Text) : Prop :=
  ∀ file statusCode sent, call app fs path method = .file file statusCode sent →
    ∃ directory ∈ app.allDirectories, Inside slashChar dotChar directory file

/-- The joined path leaves the directory, although the test of the texts lets it pass: its last
name is made longer, or it goes up.  Or the path is the directory itself, where that is a file. -/
def Leaves (fs : FileSystem) (relPath directory : Text) : Prop :=
  let parts := pathParts slashChar dotChar directory
  let joined := pathParts slashChar dotChar (joinPath directory relPath)
  Lengthened parts joined ∨ Climbed dotChar parts joined ∨
    (joined = parts ∧ fs.isFile (normalize directory) = true)

theorem dotChar_ne : dotChar ≠ slashChar := by decide

theorem head?_relativePath (path : Text) : (relativePath path).head? ≠ some slashChar := by
  have h := head?_dropWhile_not (· == slashChar) path
  rw [relativePath]
  intro hhead
  rw [hhead] at h
  simp at h

theorem index_proper : indexHtml ≠ [] ∧ indexHtml ≠ [dotChar] ∧ slashChar ∉ indexHtml := by
  decide +kernel

theorem index_ne_dotdot : indexHtml ≠ dotdot dotChar := by decide +kernel

theorem notFound_proper :
    notFoundHtml ≠ [] ∧ notFoundHtml ≠ [dotChar] ∧ slashChar ∉ notFoundHtml := by
  decide +kernel

theorem notFound_ne_dotdot : notFoundHtml ≠ dotdot dotChar := by decide +kernel

/-- What is found is the joined path, or the index below it where that is a directory. -/
theorem findIn_eq_some {fs : FileSystem} {html : Bool} {relPath directory file : Text}
    (h : findIn fs html relPath directory = some file) :
    normalize directory <+: normalize (joinPath directory relPath) ∧
      (fs.isFile (normalize (joinPath directory relPath)) = true ∧
          file = normalize (joinPath directory relPath) ∨
        fs.isFile (normalize (joinPath directory relPath)) = false ∧
          file = joinPath (normalize (joinPath directory relPath)) indexHtml) := by
  rw [findIn] at h
  split at h
  · cases h
  · rename_i hpasses
    rw [not_not] at hpasses
    refine ⟨hpasses, ?_⟩
    split at h
    · rename_i hisFile
      exact Or.inl ⟨hisFile, (Option.some.inj h).symm⟩
    · rename_i hisFile
      split at h
      · dsimp only at h
        split at h
        · exact Or.inr ⟨Bool.not_eq_true _ ▸ hisFile, (Option.some.inj h).symm⟩
        · cases h
      · cases h

/-- What is found in a directory lies in it exactly if the path does not leave it. -/
theorem inside_findIn_iff {fs : FileSystem} {html : Bool} {relPath directory file : Text}
    (hrel : relPath.head? ≠ some slashChar)
    (hfile : findIn fs html relPath directory = some file) :
    Inside slashChar dotChar directory file ↔ ¬ Leaves fs relPath directory := by
  have hslashes : slashes slashChar (joinPath directory relPath) = slashes slashChar directory :=
    slashes_join _ hrel
  obtain ⟨hpasses, hfound⟩ := findIn_eq_some hfile
  have hcases := prefix_normpath_cases dotChar_ne hslashes hpasses
  -- where the parts are the same, the path is the directory itself
  have hself (hsame : pathParts slashChar dotChar (joinPath directory relPath) =
      pathParts slashChar dotChar directory) :
      normalize (joinPath directory relPath) = normalize directory := by
    rw [normalize, normalize, normpath, normpath, hslashes, hsame]
  rcases hfound with ⟨hisFile, rfl⟩ | ⟨hisFile, rfl⟩
  · rw [normalize, inside_normpath_iff dotChar_ne, Leaves]
    constructor
    · intro hinside hleaves
      exact not_inside (by tauto) hinside
    · intro hstays
      rcases hcases with hsame | hrest
      · rw [hself hsame] at hisFile
        exact absurd (Or.inr (Or.inr ⟨hsame, hisFile⟩)) hstays
      · tauto
  · constructor
    · rintro ⟨-, below, -, hup, hparts⟩ hleaves
      rw [joinPath, pathParts_join_name index_proper index_ne_dotdot, normalize,
        pathParts_normpath dotChar_ne] at hparts
      rcases hleaves with hlonger | ⟨more, hclimbed⟩ | ⟨hsame, hdirectory⟩
      · obtain ⟨front, last, suffix, more, hsuffix, hfront, hjoined⟩ := hlonger
        have hlonger : Lengthened (pathParts slashChar dotChar directory)
            (pathParts slashChar dotChar (joinPath directory relPath) ++ [indexHtml]) :=
          ⟨front, last, suffix, more ++ [indexHtml], hsuffix, hfront, by
            rw [hjoined, append_assoc]; rfl⟩
        exact hlonger.not_prefix ⟨below, hparts.symm⟩
      · rw [hclimbed, append_assoc, append_cancel_left_eq] at hparts
        rw [← hparts] at hup
        exact hup (mem_append_left _ mem_cons_self)
      · rw [hself hsame, hdirectory] at hisFile
        cases hisFile
    · intro hstays
      apply inside_join_name index_proper index_ne_dotdot
      rw [Leaves] at hstays
      rw [normalize, inside_normpath_iff dotChar_ne, slashes_normpath dotChar_ne,
        pathParts_normpath dotChar_ne]
      tauto

theorem inside_of_notFoundIn {fs : FileSystem} {directory file : Text}
    (h : notFoundIn fs directory = some file) : Inside slashChar dotChar directory file := by
  rw [notFoundIn] at h
  split at h
  · obtain rfl := Option.some.inj h
    exact inside_join_name notFound_proper notFound_ne_dotdot (Or.inr ⟨rfl, rfl⟩)
  · cases h

/-- Everything that is served lies in a directory exactly if the first directory that has a file
for the path is not left, or another one has that file. -/
theorem staysInside_iff (app : StaticFiles) (fs : FileSystem) (path method : Option Text) :
    StaysInside app fs path method ↔
      ∀ before directory after file, app.allDirectories = before ++ directory :: after →
        (∀ other ∈ before, findIn fs app.html (relativePath (path.getD [slashChar])) other = none) →
        findIn fs app.html (relativePath (path.getD [slashChar])) directory = some file →
        Leaves fs (relativePath (path.getD [slashChar])) directory →
        ∃ other ∈ before ++ after, Inside slashChar dotChar other file := by
  constructor
  · intro h before directory after file hsplit hbefore hfile hleaves
    have hfound : app.allDirectories.findSome?
        (findIn fs app.html (relativePath (path.getD [slashChar]))) = some file := by
      rw [findSome?_eq_some_iff]
      exact ⟨before, directory, after, hsplit, hfile, hbefore⟩
    have hserved : call app fs path method = .file file 200 (method.getD (plainText "GET")) := by
      rw [call, lookup, hfound]
    obtain ⟨other, hmem, hinside⟩ := h _ _ _ hserved
    have hother : other ≠ directory := by
      rintro rfl
      exact (inside_findIn_iff (head?_relativePath _) hfile).mp hinside hleaves
    rw [hsplit] at hmem
    refine ⟨other, ?_, hinside⟩
    rcases mem_append.mp hmem with hmem | hmem
    · exact mem_append_left _ hmem
    · exact mem_append_right _ ((mem_cons.mp hmem).resolve_left hother)
  · intro h file statusCode sent hserved
    rw [call, lookup] at hserved
    split at hserved
    · rename_i found hfound
      obtain ⟨rfl, -, -⟩ := Response.file.inj hserved
      obtain ⟨before, directory, after, hsplit, hfile, hbefore⟩ :=
        findSome?_eq_some_iff.mp hfound
      by_cases hleaves : Leaves fs (relativePath (path.getD [slashChar])) directory
      · obtain ⟨other, hmem, hinside⟩ := h _ _ _ _ hsplit hbefore hfile hleaves
        refine ⟨other, ?_, hinside⟩
        rw [hsplit]
        rcases mem_append.mp hmem with hmem | hmem
        · exact mem_append_left _ hmem
        · exact mem_append_right _ (mem_cons_of_mem _ hmem)
      · refine ⟨directory, ?_, (inside_findIn_iff (head?_relativePath _) hfile).mpr hleaves⟩
        rw [hsplit]
        exact mem_append_right _ mem_cons_self
    · split at hserved
      · rename_i found hfound
        obtain ⟨rfl, -, -⟩ := Response.file.inj hserved
        cases hhtml : app.html with
        | false =>
          rw [hhtml] at hfound
          cases hfound
        | true =>
          rw [hhtml, if_pos rfl] at hfound
          obtain ⟨directory, hmem, hfile⟩ := exists_of_findSome?_eq_some hfound
          exact ⟨directory, hmem, inside_of_notFoundIn hfile⟩
      · cases hserved

/-- The directory has a neighbour whose name starts with its own. -/
theorem staticFiles_sibling :
    ¬ ∀ (app : StaticFiles) (fs : FileSystem) (path method : Option Text),
      StaysInside app fs path method := by
  intro hall
  have hserved : call ⟨[plainText "/srv/static"], false⟩
      ⟨fun path => path == plainText "/srv/static-secret/key", fun _ => false⟩
      (some (plainText "/../static-secret/key")) none =
        .file (plainText "/srv/static-secret/key") 200 (plainText "GET") := by
    decide +kernel
  obtain ⟨directory, hmem, -, below, -, -, hparts⟩ := hall _ _ _ _ _ _ _ hserved
  rw [mem_singleton.mp hmem] at hparts
  have hnot : ¬ pathParts slashChar dotChar (plainText "/srv/static") <+:
      pathParts slashChar dotChar (plainText "/srv/static-secret/key") := by
    decide +kernel
  exact hnot ⟨below, hparts.symm⟩

end AstraApi.Files
