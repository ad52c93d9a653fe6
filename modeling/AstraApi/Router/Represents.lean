import AstraApi.Router.Trie

/-!
# What a trie node stands for

A node represents a table of token words: the routes below it, read from the
node.  The child indices are in range and pairwise distinct, the prefix of a
static child is the longest common prefix of the words that start with its
first byte, and each slot holds the one parameter name of its kind.  Words
whose next byte at a node is 128 or larger have no dispatch entry; the table
keeps them, and `Shadowed` says which words that hides from the search.
-/

namespace AstraApi.Routing

open SlotTable

abbrev RouteTable := Table Token ℕ

def literal (text : Bytes) : List Token := text.map .byte

@[simp]
theorem literal_nil : literal [] = [] := rfl

@[simp]
theorem literal_cons (b : Byte) (text : Bytes) :
    literal (b :: text) = .byte b :: literal text := rfl

theorem literal_append (left right : Bytes) :
    literal (left ++ right) = literal left ++ literal right := by
  simp [literal]

def HasHead (table : RouteTable) (token : Token) : Prop :=
  ∃ rest, (table (token :: rest)).isSome

/-- The words of the table do not all continue with the same byte. -/
def Forks (table : RouteTable) : Prop :=
  (table []).isSome ∨ (∃ slot, isSlot slot = true ∧ HasHead table slot) ∨
    ∃ a b, a ≠ b ∧ HasHead table (.byte a) ∧ HasHead table (.byte b)

/-- Positions of a word at which the trie has a node. -/
def Boundary (table : RouteTable) (word : List Token) : Prop :=
  word = [] ∨ (∃ init slot, word = init ++ [slot] ∧ isSlot slot = true) ∨
    Forks (after table word)

/-- A node precedes a byte of the word that first-byte dispatch does not
cover. -/
def Shadowed (table : RouteTable) (word : List Token) : Prop :=
  ∃ init b rest, word = init ++ .byte b :: rest ∧ 128 ≤ b ∧ Boundary table init

def Node.staticChild (node : Node) (b : Byte) : Option Node :=
  if b < 128 then node.child (node.dispatch b) else none

/-- The stored index of the `/{name}` slot or, with `isCatchAll`, of the
`/{name:path}` slot. -/
def Node.slotIndex (node : Node) (isCatchAll : Bool) : ℤ :=
  if isCatchAll then node.catchAllChild else node.paramChild

def Node.slotChild (node : Node) (isCatchAll : Bool) : Option Node :=
  node.child (node.slotIndex isCatchAll)

/-- An index is absent or points into the child vector. -/
def Node.InRange (node : Node) (index : ℤ) : Prop :=
  index < 0 ∨ index.toNat < node.children.length

/-- The stored indices are in range and no two of them share a child. -/
structure Node.Indexed (node : Node) : Prop where
  dispatch : ∀ b, node.InRange (node.dispatch b)
  slot : ∀ isCatchAll, node.InRange (node.slotIndex isCatchAll)
  dispatch_inj : ∀ b c, b ≠ c → 0 ≤ node.dispatch b → node.dispatch b ≠ node.dispatch c
  dispatch_slot : ∀ b isCatchAll, 0 ≤ node.dispatch b →
    node.dispatch b ≠ node.slotIndex isCatchAll
  slot_inj : 0 ≤ node.slotIndex false → node.slotIndex false ≠ node.slotIndex true

def storedIndex : Option ℕ → ℤ
  | some index => index
  | none => -1

/-- A static child carries the longest common prefix of the words that start
with its first byte. -/
structure StaticEdge (table : RouteTable) (b : Byte) (child : Node) : Prop where
  paramName : child.paramName = []
  head : ∃ text, child.pfx = b :: text
  covers : ∀ rest, (table (.byte b :: rest)).isSome →
    literal child.pfx <+: .byte b :: rest
  forks : Forks (after table (literal child.pfx))

structure SlotEdge (table : RouteTable) (isCatchAll : Bool) (child : Node) : Prop where
  name : ∀ name, HasHead table (slotToken name isCatchAll) → name = child.paramName
  used : HasHead table (slotToken child.paramName isCatchAll)

inductive Represents (width : ℕ) : Node → RouteTable → Prop where
  | intro {node : Node} {table : RouteTable}
      (indexed : node.Indexed)
      (narrow : node.children.length ≤ width)
      (collision : node.hasDispatchCollision = false)
      (prefixes : ∀ child ∈ node.children, child.pfx ≠ [])
      (terminal : node.routeIndex = storedIndex (table []))
      (noStatic : ∀ b, b < 128 → node.staticChild b = none → ¬ HasHead table (.byte b))
      (static : ∀ b child, node.staticChild b = some child → StaticEdge table b child)
      (staticBelow : ∀ b child, node.staticChild b = some child →
        Represents width child (after table (literal child.pfx)))
      (noSlot : ∀ isCatchAll, node.slotChild isCatchAll = none →
        ∀ name, ¬ HasHead table (slotToken name isCatchAll))
      (slot : ∀ isCatchAll child, node.slotChild isCatchAll = some child →
        SlotEdge table isCatchAll child)
      (slotBelow : ∀ isCatchAll child, node.slotChild isCatchAll = some child →
        Represents width child (after table [slotToken child.paramName isCatchAll])) :
      Represents width node table

theorem Represents.mono {width width' : ℕ} (hle : width ≤ width') {node : Node}
    {table : RouteTable} (hrep : Represents width node table) :
    Represents width' node table := by
  induction hrep with
  | intro indexed narrow collision prefixes terminal noStatic static _ noSlot slot _
      ihStatic ihSlot =>
      exact .intro indexed (narrow.trans hle) collision prefixes terminal noStatic static
        ihStatic noSlot slot ihSlot

/-- The table without words. -/
def emptyTable : RouteTable := fun _ => none

@[simp]
theorem not_hasHead_empty (token : Token) : ¬ HasHead emptyTable token := by
  simp [HasHead, emptyTable]

/-- A new node without children represents the table without words. -/
theorem represents_fresh (width : ℕ) (text name : Bytes) (isCatchAll : Bool) :
    Represents width { pfx := text, paramName := name, isCatchAll := isCatchAll }
      emptyTable := by
  have hchild : ∀ (node : Node) (index : ℤ), node.children = [] → node.child index = none := by
    intro node index hnil
    simp [Node.child, hnil]
  refine .intro ⟨?_, ?_, ?_, ?_, ?_⟩ (by simp) rfl (by simp) rfl ?_ ?_ ?_ ?_ ?_ ?_
  all_goals
    simp [Node.InRange, Node.staticChild, Node.slotChild, Node.slotIndex, hchild]

/-! ## Updating one child -/

theorem Node.child_setChild_of_ne (node : Node) {index other : ℤ} (child : Node)
    (hindex : 0 ≤ index) (hne : other ≠ index) :
    (node.setChild index child).child other = node.child other := by
  by_cases hother : 0 ≤ other
  · have hnat : index.toNat ≠ other.toNat := by omega
    simp [Node.child, Node.setChild, List.getElem?_set_ne hnat]
  · simp [Node.child, hother]

theorem Node.child_setChild_self (node : Node) {index : ℤ} (child : Node)
    (hindex : 0 ≤ index) (hrange : node.InRange index) :
    (node.setChild index child).child index = some child := by
  have hlt : index.toNat < node.children.length := by
    rcases hrange with hneg | hlt
    · omega
    · exact hlt
  simp [Node.child, Node.setChild, hindex, List.getElem?_set_self hlt]

theorem Node.nonneg_of_child {node : Node} {index : ℤ} {child : Node}
    (hchild : node.child index = some child) : 0 ≤ index := by
  by_contra hneg
  simp [Node.child, hneg] at hchild

theorem Node.mem_of_child {node : Node} {index : ℤ} {child : Node}
    (hchild : node.child index = some child) : child ∈ node.children := by
  have hindex := Node.nonneg_of_child hchild
  rw [Node.child, if_pos hindex] at hchild
  exact List.mem_of_getElem? hchild

theorem Node.child_pushChild (node : Node) (fresh : Node) {index : ℤ}
    (hrange : node.InRange index) :
    (node.pushChild fresh).child index = node.child index := by
  by_cases hindex : 0 ≤ index
  · have hlt : index.toNat < node.children.length := by
      rcases hrange with hneg | hlt
      · omega
      · exact hlt
    simp [Node.child, Node.pushChild, List.getElem?_append_left hlt]
  · simp [Node.child, hindex]

theorem Node.child_pushChild_last (node : Node) (fresh : Node) :
    (node.pushChild fresh).child node.children.length = some fresh := by
  simp [Node.child, Node.pushChild]

theorem Node.inRange_setChild {node : Node} {index other : ℤ} {child : Node}
    (hrange : node.InRange other) : (node.setChild index child).InRange other := by
  simpa [Node.InRange, Node.setChild] using hrange

theorem Node.inRange_pushChild {node : Node} {other : ℤ} (fresh : Node)
    (hrange : node.InRange other) : (node.pushChild fresh).InRange other := by
  rcases hrange with hneg | hlt
  · exact .inl hneg
  · right
    simp only [Node.pushChild, List.length_append]
    omega

theorem Node.Indexed.setChild {node : Node} (hindexed : node.Indexed) (index : ℤ)
    (child : Node) : (node.setChild index child).Indexed where
  dispatch b := Node.inRange_setChild (hindexed.dispatch b)
  slot _ := Node.inRange_setChild (hindexed.slot _)
  dispatch_inj := hindexed.dispatch_inj
  dispatch_slot := hindexed.dispatch_slot
  slot_inj := hindexed.slot_inj

/-- The vector position of a new child is not used by any stored index. -/
theorem Node.InRange.ne_length {node : Node} {index : ℤ} (hrange : node.InRange index) :
    index ≠ node.children.length := by
  rcases hrange with hneg | hlt <;> omega

theorem toInt16_of_lt {index : ℕ} (hlt : index < 32768) : toInt16 index = index := by
  unfold toInt16
  rw [Int.bmod_def]
  omega

end AstraApi.Routing
