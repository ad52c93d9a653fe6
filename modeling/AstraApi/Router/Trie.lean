import AstraApi.Router.Pattern

/-!
# The radix trie router

Routes without parameters live in a hash map, all others in a radix trie
whose nodes keep their children in one vector and refer to them by `int16_t`
index: one entry per first byte below 128, one `/{name}` slot and one
`/{name:path}` slot.  Insertion and search follow `Router::insert_recursive`
and `Router::match_recursive`; the remaining text `path[pos..]` takes the place
of the pair of the text and a position in it.
-/

namespace AstraApi.Routing

/-- The match under construction.  `params` is the live part
`params[0..param_count)` of the inline array. -/
structure MatchParams where
  routeIndex : ℤ := -1
  params : List (Bytes × Bytes) := []
  deriving DecidableEq

def MatchParams.maxInline : ℕ := 8

/-- Bindings beyond the inline capacity are dropped. -/
def MatchParams.add (result : MatchParams) (name value : Bytes) : MatchParams :=
  if result.params.length < maxInline then
    { result with params := result.params ++ [(name, value)] }
  else result

/-- Setting `param_count` back forgets the bindings added since. -/
def MatchParams.restoreCount (result : MatchParams) (count : ℕ) : MatchParams :=
  { result with params := result.params.take count }

structure Node where
  pfx : Bytes := []
  dispatch : Byte → ℤ := fun _ => -1
  children : List Node := []
  paramChild : ℤ := -1
  catchAllChild : ℤ := -1
  routeIndex : ℤ := -1
  paramName : Bytes := []
  isCatchAll : Bool := false
  hasDispatchCollision : Bool := false

/-- Conversion of a vector index to `int16_t`. -/
def toInt16 (index : ℕ) : ℤ := Int.bmod index 65536

/-- The child a stored index refers to; a negative index means no child. -/
def Node.child (node : Node) (index : ℤ) : Option Node :=
  if 0 ≤ index then node.children[index.toNat]? else none

def Node.setChild (node : Node) (index : ℤ) (child : Node) : Node :=
  { node with children := node.children.set index.toNat child }

def Node.pushChild (node : Node) (child : Node) : Node :=
  { node with children := node.children ++ [child] }

/-- Bytes up to the next parameter boundary. -/
def segmentTail : Bytes → Bytes
  | [] => []
  | b :: rest => if startsParam (b :: rest) then [] else b :: segmentTail rest

/-- The static segment starting at the current position; its first byte is
taken without a boundary check. -/
def staticSegment : Bytes → Bytes
  | [] => []
  | b :: rest => b :: segmentTail rest

def commonLength : Bytes → Bytes → ℕ
  | a :: left, b :: right => if a = b then commonLength left right + 1 else 0
  | _, _ => 0

/-- Split an existing child after `count` bytes of its prefix: the
intermediate node takes the common part and the child keeps the rest. -/
def splitChild (child : Node) (count : ℕ) : Node :=
  let moved := { child with pfx := child.pfx.drop count }
  let dispatch : Byte → ℤ := fun b =>
    if moved.pfx.head? = some b ∧ b < 128 then 0 else -1
  { pfx := child.pfx.take count, dispatch := dispatch, children := [moved] }

/-- `Router::insert_recursive` on the rest of the pattern.  The recursion
always consumes text, so fuel above the length of the text is never used up. -/
def insertRecursive : ℕ → Node → Bytes → ℤ → Node × Bool
  | 0, node, _, _ => (node, false)
  | _ + 1, node, [], index => ({ node with routeIndex := index }, true)
  | fuel + 1, node, fb :: rest, index =>
    let path := fb :: rest
    if startsParam path then
      match splitAtByte closeBrace (rest.drop 1) with
      | none => (node, false)
      | some (content, rest') =>
        let paramName := (paramContent content).1
        let isCatchAll := (paramContent content).2
        let slot := if isCatchAll then node.catchAllChild else node.paramChild
        match (node.child slot).filter fun child => child.paramName == paramName with
        | some child =>
          let (child', ok) := insertRecursive fuel child rest' index
          (node.setChild slot child', ok)
        | none =>
          let childIdx := toInt16 node.children.length
          let fresh : Node :=
            { pfx := [slash], paramName := paramName, isCatchAll := isCatchAll }
          let (child', ok) := insertRecursive fuel fresh rest' index
          let node' := node.pushChild child'
          (if isCatchAll then { node' with catchAllChild := childIdx }
            else { node' with paramChild := childIdx }, ok)
    else
      let newSeg := staticSegment path
      let existing :=
        (if fb < 128 then node.child (node.dispatch fb) else none).filter fun child =>
          child.paramName.isEmpty && !child.pfx.isEmpty
      let createChild : Node × Bool :=
        let childIdx := toInt16 node.children.length
        let (child', ok) :=
          insertRecursive fuel { pfx := newSeg } (path.drop newSeg.length) index
        let node' := node.pushChild child'
        if fb < 128 then
          ({ node' with
              hasDispatchCollision := node.hasDispatchCollision ||
                (decide (0 ≤ node.dispatch fb) && decide (node.dispatch fb ≠ childIdx))
              dispatch := Function.update node.dispatch fb childIdx }, ok)
        else (node', ok)
      match existing with
      | some child =>
        if child.pfx.isPrefixOf newSeg then
          let (child', ok) :=
            insertRecursive fuel child (path.drop child.pfx.length) index
          (node.setChild (node.dispatch fb) child', ok)
        else
          let common := commonLength child.pfx newSeg
          if 0 < common then
            let (child', ok) :=
              insertRecursive fuel (splitChild child common) (path.drop common) index
            (node.setChild (node.dispatch fb) child', ok)
          else createChild
      | none => createChild

/-- Try the static children in order, as the collision scan does.  The scan
compares `int16_t` positions, so it stops at the converted vector size. -/
def scanChildren (attempt : Node → Bytes → MatchParams → Bool × MatchParams)
    (path : Bytes) (tried : ℤ) : ℕ → List Node → MatchParams → Bool × MatchParams
  | _, [], result => (false, result)
  | ci, child :: children, result =>
    if (ci : ℤ) ≠ tried ∧ child.paramName.isEmpty ∧ !child.pfx.isEmpty ∧
        child.pfx.isPrefixOf path then
      let (ok, result') := attempt child (path.drop child.pfx.length) result
      if ok then (true, result')
      else scanChildren attempt path tried (ci + 1) children result'
    else scanChildren attempt path tried (ci + 1) children result

/-- `Router::match_recursive` on the rest of the path. -/
def matchRecursive : ℕ → Node → Bytes → MatchParams → Bool × MatchParams
  | 0, _, _, result => (false, result)
  | _ + 1, node, [], result =>
    if 0 ≤ node.routeIndex then (true, { result with routeIndex := node.routeIndex })
    else
      match node.children.find? fun child =>
          child.pfx.isEmpty && decide (0 ≤ child.routeIndex) with
      | some child => (true, { result with routeIndex := child.routeIndex })
      | none => (false, result)
  | fuel + 1, node, fb :: rest, result =>
    let path := fb :: rest
    -- first-byte dispatch
    let triedIdx : ℤ := if fb < 128 ∧ 0 ≤ node.dispatch fb then node.dispatch fb else -1
    let static : Bool × MatchParams :=
      match if fb < 128 then node.child (node.dispatch fb) else none with
      | some child =>
        if child.paramName.isEmpty ∧ !child.pfx.isEmpty ∧ child.pfx.isPrefixOf path then
          matchRecursive fuel child (path.drop child.pfx.length) result
        else (false, result)
      | none => (false, result)
    if static.1 then static
    else
      let collision : Bool × MatchParams :=
        if node.hasDispatchCollision then
          scanChildren (matchRecursive fuel) path triedIdx 0
            (node.children.take (toInt16 node.children.length).toNat) static.2
        else (false, static.2)
      if collision.1 then collision
      else
        -- one non-empty segment for the parameter child
        let param : Bool × MatchParams :=
          match if fb = slash then node.child node.paramChild else none with
          | some child =>
            let value := rest.takeWhile (· != slash)
            if value ≠ [] then
              let prevCount := collision.2.params.length
              let (ok, result') := matchRecursive fuel child
                (rest.dropWhile (· != slash)) (collision.2.add child.paramName value)
              if ok then (true, result') else (false, result'.restoreCount prevCount)
            else (false, collision.2)
          | none => (false, collision.2)
        if param.1 then param
        else
          -- the catch-all child takes the rest and ends the search
          match if fb = slash then node.child node.catchAllChild else none with
          | some child =>
            let result' := param.2.add child.paramName rest
            (decide (0 ≤ child.routeIndex), { result' with routeIndex := child.routeIndex })
          | none => (false, param.2)

/-- The router: the hash map of parameter-free routes and the trie. -/
structure Router where
  staticRoutes : Bytes → Option ℤ := fun _ => none
  root : Node := {}

def Router.insert (router : Router) (pattern : Bytes) (index : ℤ) : Router × Bool :=
  if openBrace ∈ pattern then
    let (root, ok) := insertRecursive (pattern.length + 1) router.root pattern index
    ({ router with root := root }, ok)
  else
    ({ router with staticRoutes := Function.update router.staticRoutes pattern (some index) },
      true)

def Router.at (router : Router) (path : Bytes) : Option MatchParams :=
  match router.staticRoutes path with
  | some index => some { routeIndex := index }
  | none =>
    let (ok, result) := matchRecursive (path.length + 1) router.root path {}
    if ok then some result else none

/-- A sequence of `insert` calls on one router, `none` as soon as a call
returns false.  The indices are positions in the route vector. -/
def Router.insertAll : Router → List (Bytes × ℕ) → Option Router
  | router, [] => some router
  | router, (pattern, index) :: inserts =>
    let (router', ok) := router.insert pattern index
    if ok then router'.insertAll inserts else none

end AstraApi.Routing
