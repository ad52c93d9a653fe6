import AstraApi.Router.Descent

/-!
# Insertion updates the represented table

`Router::insert_recursive` on a node that represents a table leaves a node
that represents the table after `put`: the new route is stored and exactly the
routes competing for one of its parameter slots under another name are gone.
-/

namespace AstraApi.Routing

open List hiding after
open SlotTable

variable {rest name : Bytes} {tokens word : List Token} {count index width fuel : ℕ} {fb : Byte}
  {table : RouteTable} {token : Token} {child node fresh : Node}

/-! ## Heads and forks under `put` -/

abbrev putRoute (table : RouteTable) (word : List Token) (index : ℕ) : RouteTable :=
  put rival table word index

theorem slotToken_isSlot (name : Bytes) (isCatchAll : Bool) :
    isSlot (slotToken name isCatchAll) = true := by
  cases isCatchAll <;> rfl

theorem slotToken_ne_byte (name : Bytes) (isCatchAll : Bool) (b : Byte) :
    slotToken name isCatchAll ≠ .byte b := by
  cases isCatchAll <;> simp [slotToken]

theorem rival_byte (token : Token) (b : Byte) : rival token (.byte b) = false := by
  cases token <;> rfl

theorem rival_byte_left (b : Byte) (token : Token) : rival (.byte b) token = false := rfl

theorem rival_slotToken (name name' : Bytes) (isCatchAll isCatchAll' : Bool) :
    rival (slotToken name isCatchAll) (slotToken name' isCatchAll') =
      (isCatchAll == isCatchAll') := by
  cases isCatchAll <;> cases isCatchAll' <;> rfl

theorem slotToken_injective {name' : Bytes} {isCatchAll : Bool}
    (heq : slotToken name isCatchAll = slotToken name' isCatchAll) : name = name' := by
  cases isCatchAll <;> simpa [slotToken] using heq

theorem slotToken_kind {name' : Bytes} {isCatchAll isCatchAll' : Bool}
    (hne : isCatchAll ≠ isCatchAll') :
    slotToken name isCatchAll ≠ slotToken name' isCatchAll' := by
  cases isCatchAll <;> cases isCatchAll' <;> simp_all [slotToken]

/-- Words below a head off the inserted word's path are untouched unless the
heads compete. -/
theorem putRoute_cons_ne {a b : Token} (hne : b ≠ a) (hrival : rival b a = false)
    (rest : List Token) :
    putRoute table (a :: word) index (b :: rest) = table (b :: rest) := by
  simp [put, displaces, hne, hrival]

theorem hasHead_putRoute_self (table : RouteTable) (a : Token) (word : List Token)
    (index : ℕ) : HasHead (putRoute table (a :: word) index) a :=
  ⟨word, by simp [put_self]⟩

theorem hasHead_putRoute {table : RouteTable} {token : Token} (word : List Token)
    (index : ℕ) (hhead : HasHead table token) :
    HasHead (putRoute table word index) token ∨
      ∃ a tail, word = a :: tail ∧ a ≠ token ∧ rival token a = true := by
  obtain ⟨rest, hrest⟩ := hhead
  cases word with
  | nil => exact .inl ⟨rest, by simpa [put_nil_cons] using hrest⟩
  | cons a word =>
    by_cases ha : a = token
    · subst ha
      exact .inl (hasHead_putRoute_self _ a _ _)
    · by_cases hrival : rival token a = true
      · exact .inr ⟨a, word, rfl, ha, hrival⟩
      · left
        refine ⟨rest, ?_⟩
        rw [putRoute_cons_ne (fun h => ha h.symm) (by simpa using hrival)]
        exact hrest

theorem hasHead_byte_putRoute {b : Byte} (word : List Token)
    (index : ℕ) (hhead : HasHead table (.byte b)) :
    HasHead (putRoute table word index) (.byte b) := by
  rcases hasHead_putRoute word index hhead with h | ⟨a, _, _, _, hrival⟩
  · exact h
  · simp [rival_byte_left] at hrival

theorem isSlot_of_rival {a b : Token} (hrival : rival a b = true) : isSlot b = true := by
  cases a <;> cases b <;> simp_all [rival, isSlot]

theorem Forks.putRoute {table : RouteTable} (hforks : Forks table) (word : List Token)
    (index : ℕ) : Forks (putRoute table word index) := by
  rcases hforks with hnil | ⟨slot, hslot, hhead⟩ | ⟨a, b, hab, ha, hb⟩
  · left
    cases word with
    | nil => simp [put_self]
    | cons a word => simpa [put_cons_nil] using hnil
  · right; left
    rcases hasHead_putRoute word index hhead with h | ⟨a, tail, rfl, _, hrival⟩
    · exact ⟨slot, hslot, h⟩
    · exact ⟨a, isSlot_of_rival hrival, hasHead_putRoute_self _ a _ _⟩
  · right; right
    exact ⟨a, b, hab, hasHead_byte_putRoute _ _ ha, hasHead_byte_putRoute _ _ hb⟩

theorem hasHead_congr {table' : RouteTable}
    (hsame : ∀ rest, table' (token :: rest) = table (token :: rest)) :
    HasHead table' token ↔ HasHead table token := by
  simp [HasHead, hsame]

theorem StaticEdge.congr {table' : RouteTable} {b : Byte}
    (hsame : ∀ rest, table' (.byte b :: rest) = table (.byte b :: rest))
    (hedge : StaticEdge table b child) : StaticEdge table' b child := by
  obtain ⟨text, htext⟩ := hedge.head
  have hbelow : after table' (literal child.pfx) = after table (literal child.pfx) := by
    funext rest
    simp [after, htext, hsame]
  refine ⟨hedge.paramName, hedge.head, ?_, ?_⟩
  · intro rest hrest
    rw [hsame] at hrest
    exact hedge.covers _ hrest
  · rw [hbelow]
    exact hedge.forks

theorem SlotEdge.congr {table table' : RouteTable} {isCatchAll : Bool} {child : Node}
    (hsame : ∀ name rest, table' (slotToken name isCatchAll :: rest) =
      table (slotToken name isCatchAll :: rest))
    (hedge : SlotEdge table isCatchAll child) : SlotEdge table' isCatchAll child := by
  refine ⟨?_, (hasHead_congr (hsame _)).2 hedge.used⟩
  intro name hname
  exact hedge.name _ ((hasHead_congr (hsame _)).1 hname)

/-! ## One edge of a node is replaced -/

theorem Represents.indexed (hrep : Represents width node table) : node.Indexed := by
  cases hrep
  assumption

theorem Represents.narrow (hrep : Represents width node table) : node.children.length ≤ width := by
  cases hrep
  assumption

theorem Represents.collision (hrep : Represents width node table) :
    node.hasDispatchCollision = false := by
  cases hrep
  assumption

theorem Represents.prefixes (hrep : Represents width node table) :
    ∀ child ∈ node.children, child.pfx ≠ [] := by
  cases hrep
  assumption

theorem Represents.terminal (hrep : Represents width node table) :
    node.routeIndex = storedIndex (table []) := by
  cases hrep
  assumption

theorem Represents.static (hrep : Represents width node table) {b : Byte}
    (hchild : node.staticChild b = some child) :
    StaticEdge table b child ∧ Represents width child (after table (literal child.pfx)) := by
  obtain ⟨_, _, _, _, _, _, static, staticBelow, _, _, _⟩ := hrep
  exact ⟨static _ _ hchild, staticBelow _ _ hchild⟩

theorem Represents.slot (hrep : Represents width node table) {kind : Bool}
    (hchild : node.slotChild kind = some child) : SlotEdge table kind child ∧
      Represents width child (after table [slotToken child.paramName kind]) := by
  obtain ⟨_, _, _, _, _, _, _, _, _, slot, slotBelow⟩ := hrep
  exact ⟨slot _ _ hchild, slotBelow _ _ hchild⟩

/-- A node some of whose edges are new: the others are as before, and so are the words of the
table that begin like them. -/
theorem represents_of_frame {node' : Node} {table' : RouteTable}
    (hrep : Represents width node table) (indexed : node'.Indexed)
    (narrow : node'.children.length ≤ width + 1) (collision : node'.hasDispatchCollision = false)
    (prefixes : ∀ child ∈ node'.children, child.pfx ≠ [])
    (terminal : node'.routeIndex = storedIndex (table' []))
    (hstatic : ∀ b, node'.staticChild b = node.staticChild b ∧
        (b < 128 → ∀ rest, table' (.byte b :: rest) = table (.byte b :: rest)) ∨
      ∃ child, node'.staticChild b = some child ∧ StaticEdge table' b child ∧
        Represents (width + 1) child (after table' (literal child.pfx)))
    (hslot : ∀ kind, node'.slotChild kind = node.slotChild kind ∧
        (∀ name rest, table' (slotToken name kind :: rest) = table (slotToken name kind :: rest)) ∨
      ∃ child, node'.slotChild kind = some child ∧ SlotEdge table' kind child ∧
        Represents (width + 1) child (after table' [slotToken child.paramName kind])) :
    Represents (width + 1) node' table' := by
  have hstatics (b : Byte) (child : Node) (hchild : node'.staticChild b = some child) :
      StaticEdge table' b child ∧
        Represents (width + 1) child (after table' (literal child.pfx)) := by
    rcases hstatic b with ⟨hsame, hrows⟩ | ⟨other, hother, hedge⟩
    · rw [hsame] at hchild
      obtain ⟨hold, hbelow⟩ := hrep.static hchild
      have hrows := hrows (Node.staticChild_eq hchild).1
      obtain ⟨text, htext⟩ := hold.head
      have hafter : after table' (literal child.pfx) = after table (literal child.pfx) := by
        funext tail
        simp [after, htext, hrows]
      exact ⟨hold.congr hrows, hafter ▸ hbelow.mono (Nat.le_succ _)⟩
    · obtain rfl : other = child := Option.some.inj (hother.symm.trans hchild)
      exact hedge
  have hslots (kind : Bool) (child : Node) (hchild : node'.slotChild kind = some child) :
      SlotEdge table' kind child ∧
        Represents (width + 1) child (after table' [slotToken child.paramName kind]) := by
    rcases hslot kind with ⟨hsame, hrows⟩ | ⟨other, hother, hedge⟩
    · rw [hsame] at hchild
      obtain ⟨hold, hbelow⟩ := hrep.slot hchild
      have hafter : after table' [slotToken child.paramName kind] =
          after table [slotToken child.paramName kind] := by
        funext tail
        exact hrows _ _
      exact ⟨hold.congr hrows, hafter ▸ hbelow.mono (Nat.le_succ _)⟩
    · obtain rfl : other = child := Option.some.inj (hother.symm.trans hchild)
      exact hedge
  obtain ⟨_, _, _, _, _, noStatic, _, _, noSlot, _, _⟩ := hrep
  refine .intro indexed narrow collision prefixes terminal ?_ (fun b child h => (hstatics b child h).1)
    (fun b child h => (hstatics b child h).2) ?_ (fun kind child h => (hslots kind child h).1)
    fun kind child h => (hslots kind child h).2
  · intro b hb hnone
    rcases hstatic b with ⟨hsame, hrows⟩ | ⟨other, hother, -⟩
    · rw [hasHead_congr (hrows hb)]
      exact noStatic b hb (hsame ▸ hnone)
    · exact absurd (hnone.symm.trans hother) (by simp)
  · intro kind hnone name
    rcases hslot kind with ⟨hsame, hrows⟩ | ⟨other, hother, -⟩
    · rw [hasHead_congr (hrows name)]
      exact noSlot kind (hsame ▸ hnone) name
    · exact absurd (hnone.symm.trans hother) (by simp)

/-- The end of the pattern: only the terminal index changes. -/
theorem represents_terminal (hrep : Represents width node table) (index : ℕ) :
    Represents (width + 1) { node with routeIndex := index } (putRoute table [] index) := by
  have hindexed := hrep.indexed
  exact represents_of_frame hrep ⟨hindexed.dispatch, hindexed.slot, hindexed.dispatch_inj,
    hindexed.dispatch_slot, hindexed.slot_inj⟩ (hrep.narrow.trans (Nat.le_succ _)) hrep.collision
    hrep.prefixes (by simp [put_self, storedIndex])
    (fun b => .inl ⟨rfl, fun _ rest => put_nil_cons ..⟩)
    fun kind => .inl ⟨rfl, fun name rest => put_nil_cons ..⟩

/-- What stays the same at a node when a word starting with byte `b` is
inserted: every edge but the one for `b`. -/
theorem putRoute_byte_other {b : Byte} (hne : token ≠ .byte b) (rest : List Token) :
    putRoute table (.byte b :: word) index (token :: rest) = table (token :: rest) :=
  putRoute_cons_ne hne (rival_byte _ b) _

theorem represents_setStatic {child' : Node} {b : Byte} (hrep : Represents width node table)
    (hchild : node.staticChild b = some child)
    (hedge : StaticEdge (putRoute table (.byte b :: word) index) b child' ∧
      Represents (width + 1) child'
        (after (putRoute table (.byte b :: word) index) (literal child'.pfx))) :
    Represents (width + 1) (node.setChild (node.dispatch b) child')
      (putRoute table (.byte b :: word) index) := by
  obtain ⟨hb, hat⟩ := Node.staticChild_eq hchild
  have hindex := Node.nonneg_of_child hat
  have hindexed := hrep.indexed
  refine represents_of_frame hrep (hindexed.setChild _ _) ?_ hrep.collision ?_ ?_
    (fun c => ?_) fun kind => .inl ⟨?_, fun name => putRoute_byte_other (slotToken_ne_byte _ _ b)⟩
  · simp only [Node.setChild, length_set]
    exact hrep.narrow.trans (Nat.le_succ _)
  · intro other hmem
    rcases mem_or_eq_of_mem_set hmem with hmem | rfl
    · exact hrep.prefixes _ hmem
    · obtain ⟨text, htext⟩ := hedge.1.head
      simp [htext]
  · exact hrep.terminal.trans (by simp [put_cons_nil])
  · by_cases hcb : c = b
    · subst hcb
      refine .inr ⟨child', ?_, hedge⟩
      rw [Node.staticChild, if_pos hb]
      exact Node.child_setChild_self _ _ hindex (hindexed.dispatch c)
    · refine .inl ⟨?_, fun _ => putRoute_byte_other (by simpa using hcb)⟩
      unfold Node.staticChild
      split
      · exact Node.child_setChild_of_ne _ _ hindex
          (hindexed.dispatch_inj b c (fun h => hcb h.symm) hindex).symm
      · rfl
  · exact Node.child_setChild_of_ne _ _ hindex (hindexed.dispatch_slot b _ hindex).symm

theorem Node.Indexed.pushChild {node : Node} (hindexed : node.Indexed) (fresh : Node) :
    (node.pushChild fresh).Indexed where
  dispatch b := Node.inRange_pushChild _ (hindexed.dispatch b)
  slot _ := Node.inRange_pushChild _ (hindexed.slot _)
  dispatch_inj := hindexed.dispatch_inj
  dispatch_slot := hindexed.dispatch_slot
  slot_inj := hindexed.slot_inj

theorem pfx_ne_nil_of_pushChild (hrep : Represents width node table) (hfresh : fresh.pfx ≠ []) :
    ∀ child ∈ (node.pushChild fresh).children, child.pfx ≠ [] := by
  intro child hmem
  rcases mem_append.mp hmem with hmem | hmem
  · exact hrep.prefixes _ hmem
  · obtain rfl : child = fresh := by simpa using hmem
    exact hfresh

theorem length_pushChild_le (hrep : Represents width node table) :
    (node.pushChild fresh).children.length ≤ width + 1 := by
  simp only [Node.pushChild, length_append, length_singleton]
  exact Nat.succ_le_succ hrep.narrow

theorem Node.Indexed.pushStatic (hindexed : node.Indexed) (b : Byte) (fresh : Node)
    (collision : Bool) :
    ({ node.pushChild fresh with
      hasDispatchCollision := collision
      dispatch := Function.update node.dispatch b node.children.length } : Node).Indexed := by
  set node' : Node :=
    { node.pushChild _ with
      hasDispatchCollision := collision
      dispatch := Function.update _ b _ } with hnode'
  have hat : node'.dispatch b = node.children.length := by simp [hnode']
  have hoff : ∀ c, c ≠ b → node'.dispatch c = node.dispatch c := by
    intro c hcb
    simp [hnode', hcb]
  have hslots : ∀ isCatchAll, node'.slotIndex isCatchAll = node.slotIndex isCatchAll :=
    fun _ => rfl
  have hrange : ∀ other, node.InRange other → node'.InRange other :=
    fun _ h => Node.inRange_pushChild _ h
  refine ⟨?_, ?_, ?_, ?_, hindexed.slot_inj⟩
  · intro c
    by_cases hcb : c = b
    · subst hcb
      right
      simp [hnode', Node.pushChild]
    · rw [hoff c hcb]
      exact hrange _ (hindexed.dispatch c)
  · intro isCatchAll
    exact hrange _ (hindexed.slot _)
  · intro c d hcd hpos
    by_cases hcb : c = b
    · subst hcb
      rw [hat, hoff d hcd.symm]
      exact (hindexed.dispatch d).ne_length.symm
    · rw [hoff c hcb] at hpos ⊢
      by_cases hdb : d = b
      · subst hdb
        rw [hat]
        exact (hindexed.dispatch c).ne_length
      · rw [hoff d hdb]
        exact hindexed.dispatch_inj c d hcd hpos
  · intro c isCatchAll hpos
    by_cases hcb : c = b
    · subst hcb
      rw [hat]
      exact (hindexed.slot _).ne_length.symm
    · rw [hoff c hcb] at hpos ⊢
      exact hindexed.dispatch_slot c _ hpos

theorem represents_pushStatic {b : Byte} (hrep : Represents width node table) (hb : b < 128)
    (hnone : node.staticChild b = none) (hlength : toInt16 node.children.length = node.children.length)
    (hedge : StaticEdge (putRoute table (.byte b :: word) index) b fresh ∧
      Represents (width + 1) fresh
        (after (putRoute table (.byte b :: word) index) (literal fresh.pfx))) :
    Represents (width + 1) (node.withStatic b fresh) (putRoute table (.byte b :: word) index) := by
  have hfresh : fresh.pfx ≠ [] := by
    obtain ⟨text, htext⟩ := hedge.1.head
    simp [htext]
  have hindexed := hrep.indexed
  have hdispatch : ¬ 0 ≤ node.dispatch b := by
    intro hpos
    rw [Node.staticChild, if_pos hb, Node.child, if_pos hpos] at hnone
    rcases hindexed.dispatch b with hneg | hlt
    · omega
    · simp [getElem?_eq_getElem hlt] at hnone
  rw [Node.withStatic, if_pos hb, hlength]
  refine represents_of_frame hrep (hindexed.pushStatic b _ _) (length_pushChild_le hrep) ?_
    (pfx_ne_nil_of_pushChild hrep hfresh) (hrep.terminal.trans (by simp [put_cons_nil]))
    (fun c => ?_) fun kind => .inl ⟨Node.child_pushChild _ _ (hindexed.slot _),
      fun name => putRoute_byte_other (slotToken_ne_byte _ _ b)⟩
  · simp [hrep.collision, hdispatch]
  · by_cases hcb : c = b
    · subst hcb
      refine .inr ⟨fresh, ?_, hedge⟩
      rw [Node.staticChild, if_pos hb]
      simp only [Function.update_self]
      exact Node.child_pushChild_last _ _
    · refine .inl ⟨?_, fun _ => putRoute_byte_other (by simpa using hcb)⟩
      unfold Node.staticChild
      split
      · simp only [Function.update_of_ne hcb]
        exact Node.child_pushChild _ _ (hindexed.dispatch c)
      · rfl

/-- A new child whose first byte has no dispatch entry is never reached. -/
theorem represents_pushDead {b : Byte}
    (hrep : Represents width node table) (hb : ¬ b < 128) (hfresh : fresh.pfx ≠ []) :
    Represents (width + 1) (node.withStatic b fresh) (putRoute table (.byte b :: word) index) := by
  have hindexed := hrep.indexed
  rw [Node.withStatic, if_neg hb]
  refine represents_of_frame hrep (hindexed.pushChild _) (length_pushChild_le hrep) hrep.collision
    (pfx_ne_nil_of_pushChild hrep hfresh) (hrep.terminal.trans (by simp [put_cons_nil]))
    (fun c => .inl ⟨?_, fun hc => putRoute_byte_other ?_⟩)
    fun kind => .inl ⟨Node.child_pushChild _ _ (hindexed.slot _),
      fun name => putRoute_byte_other (slotToken_ne_byte _ _ b)⟩
  · unfold Node.staticChild
    split
    · exact Node.child_pushChild _ _ (hindexed.dispatch c)
    · rfl
  · rintro ⟨⟩
    exact hb hc

/-! ## One slot of a node is replaced -/

theorem after_eq_empty (hhead : ¬ HasHead table token) : after table [token] = emptyTable := by
  funext rest
  by_contra hsome
  exact hhead ⟨rest, Option.isSome_iff_ne_none.mpr hsome⟩

/-- The new child of a slot leaves the static edges and the other slot as they
were; names that competed for the slot are gone. -/
theorem represents_slot_of_frame {node' child' : Node} {kind : Bool}
    (hrep : Represents width node table)
    (indexed : node'.Indexed) (narrow : node'.children.length ≤ width + 1)
    (collision : node'.hasDispatchCollision = false)
    (prefixes : ∀ child ∈ node'.children, child.pfx ≠ [])
    (hroute : node'.routeIndex = node.routeIndex)
    (hstatic : ∀ c, node'.staticChild c = node.staticChild c)
    (hother : node'.slotChild (!kind) = node.slotChild (!kind))
    (hself : node'.slotChild kind = some child') (hname : child'.paramName = name)
    (hbelow : Represents (width + 1) child'
      (putRoute (after table [slotToken name kind]) word index)) :
    Represents (width + 1) node' (putRoute table (slotToken name kind :: word) index) := by
  refine represents_of_frame hrep indexed narrow collision prefixes ?_
    (fun c => .inl ⟨hstatic c, fun _ rest => putRoute_cons_ne (slotToken_ne_byte _ _ c).symm
      (rival_byte_left c _) _⟩) fun kind' => ?_
  · rw [hroute, hrep.terminal]
    simp [put_cons_nil]
  · by_cases hk : kind' = kind
    · subst hk
      refine .inr ⟨child', hself, ⟨?_, ?_⟩, ?_⟩
      · rintro name' ⟨rest, hrest⟩
        by_contra hne
        have hne' : slotToken name' kind' ≠ slotToken name kind' :=
          fun h => hne ((slotToken_injective h).trans hname.symm)
        simp [put, displaces, hne', rival_slotToken] at hrest
      · rw [hname]
        exact hasHead_putRoute_self _ _ _ _
      · rw [hname]
        exact (after_put_append rival table [slotToken name kind'] word index).symm ▸ hbelow
    · obtain rfl : kind' = !kind := Bool.eq_not.mpr hk
      refine .inl ⟨hother, fun name' rest => putRoute_cons_ne (slotToken_kind (by simp)) ?_ _⟩
      rw [rival_slotToken]
      simp

theorem represents_setSlot {child' : Node} {kind : Bool}
    (hrep : Represents width node table) (hchild : node.slotChild kind = some child)
    (hname : child'.paramName = name) (hpfx : child'.pfx ≠ [])
    (hbelow : Represents (width + 1) child'
      (putRoute (after table [slotToken name kind]) word index)) :
    Represents (width + 1) (node.setChild (node.slotIndex kind) child')
      (putRoute table (slotToken name kind :: word) index) := by
  have hindex := Node.nonneg_of_child hchild
  have hindexed := hrep.indexed
  refine represents_slot_of_frame hrep (hindexed.setChild _ _) ?_ hrep.collision ?_ rfl ?_ ?_ ?_
    hname hbelow
  · simp only [Node.setChild, length_set]
    exact hrep.narrow.trans (Nat.le_succ _)
  · intro other hmem
    rcases mem_or_eq_of_mem_set hmem with hmem | rfl
    · exact hrep.prefixes _ hmem
    · exact hpfx
  · intro c
    unfold Node.staticChild
    split
    · by_cases hpos : 0 ≤ node.dispatch c
      · exact Node.child_setChild_of_ne _ _ hindex (hindexed.dispatch_slot c _ hpos)
      · simp [Node.child, Node.setChild, hpos]
    · rfl
  · refine Node.child_setChild_of_ne _ _ hindex ?_
    cases kind with
    | false => exact (hindexed.slot_inj hindex).symm
    | true =>
      intro heq
      exact hindexed.slot_inj (heq ▸ hindex) heq
  · exact Node.child_setChild_self _ _ hindex (hindexed.slot _)

theorem children_withSlot (kind : Bool) (child : Node) :
    (node.withSlot kind child).children = (node.pushChild child).children := by
  cases kind <;> rfl

theorem dispatch_withSlot (kind : Bool) (child : Node) :
    (node.withSlot kind child).dispatch = node.dispatch := by
  cases kind <;> rfl

theorem collision_withSlot (kind : Bool) (child : Node) :
    (node.withSlot kind child).hasDispatchCollision = node.hasDispatchCollision := by
  cases kind <;> rfl

theorem slotIndex_withSlot_self (kind : Bool) (child : Node) :
    (node.withSlot kind child).slotIndex kind = toInt16 node.children.length := by
  cases kind <;> simp [Node.withSlot, Node.slotIndex]

theorem slotIndex_withSlot_other (kind : Bool) (child : Node) :
    (node.withSlot kind child).slotIndex (!kind) = node.slotIndex (!kind) := by
  cases kind <;> simp [Node.withSlot, Node.slotIndex, Node.pushChild]

theorem child_withSlot (kind : Bool) (child : Node) (index : ℤ) :
    (node.withSlot kind child).child index = (node.pushChild child).child index := by
  cases kind <;> simp [Node.withSlot, Node.child]

section WithSlot

variable {kind : Bool} (hlength : toInt16 node.children.length = node.children.length)

include hlength

theorem Node.Indexed.withSlot (hindexed : node.Indexed) :
    (node.withSlot kind fresh).Indexed := by
  have hrange (other : ℤ) (hother : node.InRange other) :
      (node.withSlot kind fresh).InRange other := by
    simpa [Node.InRange, children_withSlot] using Node.inRange_pushChild _ hother
  have hslot (kind' : Bool) : (node.withSlot kind fresh).slotIndex kind' = node.children.length ∨
      (node.withSlot kind fresh).slotIndex kind' = node.slotIndex kind' := by
    by_cases hk : kind' = kind
    · subst hk
      exact .inl ((slotIndex_withSlot_self _ _).trans hlength)
    · obtain rfl : kind' = !kind := Bool.eq_not.mpr hk
      exact .inr (slotIndex_withSlot_other _ _)
  refine ⟨?_, ?_, ?_, ?_, ?_⟩
  · intro b
    rw [dispatch_withSlot]
    exact hrange _ (hindexed.dispatch b)
  · intro kind'
    rcases hslot kind' with heq | heq
    · right
      rw [heq, children_withSlot]
      simp [Node.pushChild]
    · rw [heq]
      exact hrange _ (hindexed.slot _)
  · rw [dispatch_withSlot]
    exact hindexed.dispatch_inj
  · intro b kind' hpos
    rw [dispatch_withSlot] at hpos ⊢
    rcases hslot kind' with heq | heq
    · rw [heq]
      exact (hindexed.dispatch b).ne_length
    · rw [heq]
      exact hindexed.dispatch_slot b _ hpos
  · rw [Node.withSlot, hlength]
    cases kind with
    | false => exact fun _ => (hindexed.slot true).ne_length.symm
    | true => exact fun _ => (hindexed.slot false).ne_length

theorem represents_withSlot (hrep : Represents width node table) (hname : fresh.paramName = name)
    (hpfx : fresh.pfx ≠ [])
    (hbelow : Represents (width + 1) fresh
      (putRoute (after table [slotToken name kind]) word index)) :
    Represents (width + 1) (node.withSlot kind fresh)
      (putRoute table (slotToken name kind :: word) index) := by
  have hindexed := hrep.indexed
  refine represents_slot_of_frame hrep (hindexed.withSlot hlength) ?_
    ((collision_withSlot _ _).trans hrep.collision) ?_ ?_ ?_ ?_ ?_ hname hbelow
  · rw [children_withSlot]
    exact length_pushChild_le hrep
  · rw [children_withSlot]
    exact pfx_ne_nil_of_pushChild hrep hpfx
  · cases kind <;> rfl
  · intro c
    rw [Node.staticChild, Node.staticChild, dispatch_withSlot, child_withSlot,
      Node.child_pushChild _ _ (hindexed.dispatch c)]
  · rw [Node.slotChild, slotIndex_withSlot_other, child_withSlot,
      Node.child_pushChild _ _ (hindexed.slot _)]
    rfl
  · rw [Node.slotChild, slotIndex_withSlot_self, hlength, child_withSlot]
    exact Node.child_pushChild_last _ _

end WithSlot

/-! ## Splitting a static child -/

theorem Represents.withPfx (hrep : Represents width node table) (text : Bytes) :
    Represents width { node with pfx := text } table := by
  obtain ⟨indexed, narrow, collision, prefixes, terminal, noStatic, static, staticBelow,
    noSlot, slot, slotBelow⟩ := hrep
  exact .intro ⟨indexed.dispatch, indexed.slot, indexed.dispatch_inj, indexed.dispatch_slot,
    indexed.slot_inj⟩ narrow collision prefixes terminal noStatic static staticBelow noSlot
    slot slotBelow

/-- Below a proper part of a static child's prefix every word continues with
the next byte of the prefix. -/
theorem StaticEdge.covers_drop {b : Byte}
    (hedge : StaticEdge table b child) (hpos : 0 < count)
    (hword : (after table (literal (child.pfx.take count)) word).isSome) :
    literal (child.pfx.drop count) <+: word := by
  obtain ⟨text, htext⟩ := hedge.head
  obtain ⟨count, rfl⟩ : ∃ k, count = k + 1 := ⟨count - 1, by omega⟩
  have hhead : literal (child.pfx.take (count + 1)) ++ word =
      .byte b :: (literal (text.take count) ++ word) := by
    simp [htext]
  have hcovers := hedge.covers _ (by
    rw [after_apply, hhead] at hword
    exact hword)
  rw [← hhead] at hcovers
  have hsplit : literal child.pfx =
      literal (child.pfx.take (count + 1)) ++ literal (child.pfx.drop (count + 1)) := by
    rw [← literal_append, take_append_drop]
  rw [hsplit] at hcovers
  exact (prefix_append_right_inj _).1 hcovers

theorem StaticEdge.next_token {b c : Byte} {text : Bytes} (hedge : StaticEdge table b child)
    (hpos : 0 < count) (hnext : child.pfx.drop count = c :: text)
    (hhead : HasHead (after table (literal (child.pfx.take count))) token) : token = .byte c := by
  obtain ⟨rest, hrest⟩ := hhead
  have hprefix := hedge.covers_drop hpos hrest
  rw [hnext, literal_cons, cons_prefix_cons] at hprefix
  exact hprefix.1.symm

section SplitChild

variable {child : Node} {count : ℕ}

theorem slotIndex_splitChild (kind : Bool) : (splitChild child count).slotIndex kind = -1 := by
  cases kind <;> rfl

theorem slotChild_splitChild (kind : Bool) : (splitChild child count).slotChild kind = none := by
  cases kind <;> simp [Node.slotChild, Node.slotIndex, Node.child, splitChild]

variable {c : Byte} {text : Bytes} (hnext : child.pfx.drop count = c :: text)

include hnext

theorem dispatch_splitChild (d : Byte) :
    (splitChild child count).dispatch d = if c = d ∧ d < 128 then 0 else -1 := by
  simp [splitChild, hnext]

theorem staticChild_splitChild (d : Byte) : (splitChild child count).staticChild d =
    if c = d ∧ d < 128 then some { child with pfx := child.pfx.drop count } else none := by
  rw [Node.staticChild, Node.child, dispatch_splitChild hnext]
  by_cases hd : d < 128
  · by_cases hcd : c = d
    · simp [hd, hcd, splitChild]
    · simp [hcd]
  · simp [hd]

theorem indexed_splitChild : (splitChild child count).Indexed := by
  refine ⟨?_, ?_, ?_, ?_, ?_⟩
  · intro d
    rw [Node.InRange, dispatch_splitChild hnext]
    split
    · simp [splitChild]
    · simp
  · intro kind
    left
    simp [slotIndex_splitChild]
  · intro d e hde hnonneg
    rw [dispatch_splitChild hnext] at hnonneg ⊢
    rw [dispatch_splitChild hnext]
    split at hnonneg
    · rename_i hcd
      have hce : ¬ (c = e ∧ e < 128) := fun h => hde (hcd.1.symm.trans h.1)
      rw [if_pos hcd, if_neg hce]
      decide
    · simp at hnonneg
  · intro d kind hnonneg
    rw [slotIndex_splitChild]
    omega
  · intro hnonneg
    simp [slotIndex_splitChild] at hnonneg

end SplitChild

/-- The intermediate node of a split stands for the words below the common
part. -/
theorem represents_splitChild {b c : Byte} {text : Bytes} (hedge : StaticEdge table b child)
    (hbelow : Represents width child (after table (literal child.pfx)))
    (hwidth : 1 ≤ width) (hpos : 0 < count) (hnext : child.pfx.drop count = c :: text) :
    Represents width (splitChild child count) (after table (literal (child.pfx.take count))) := by
  set moved : Node := { child with pfx := child.pfx.drop _ } with hmoved
  have hcovers : ∀ {word : List Token},
      (after table (literal (child.pfx.take count)) word).isSome →
        literal (child.pfx.drop count) <+: word :=
    fun hword => hedge.covers_drop hpos hword
  have hjoin : after (after table (literal (child.pfx.take count))) (literal moved.pfx) =
      after table (literal child.pfx) := by
    rw [after_after, ← literal_append, hmoved, take_append_drop]
  refine .intro (indexed_splitChild hnext) ?_ rfl ?_ ?_ ?_ ?_ ?_ ?_ ?_ ?_
  · simpa [splitChild] using hwidth
  · intro other hmem
    obtain rfl : other = moved := by simpa [splitChild, hmoved] using hmem
    simp [hmoved, hnext]
  · have hnone : after table (literal (child.pfx.take count)) [] = none := by
      by_contra hsome
      have hprefix := hcovers (Option.isSome_iff_ne_none.mpr hsome)
      simp [hnext] at hprefix
    simp [splitChild, hnone, storedIndex]
  · intro d hd hnone hhead
    obtain rfl : d = c := by simpa using hedge.next_token hpos hnext hhead
    simp [staticChild_splitChild hnext, hd] at hnone
  · intro d other hother
    rw [staticChild_splitChild hnext] at hother
    split at hother
    · rename_i hcd
      obtain rfl : moved = other := by simpa using hother
      refine ⟨hedge.paramName, ⟨text, ?_⟩, ?_, ?_⟩
      · rw [← hcd.1]
        exact hnext
      · intro rest hrest
        exact hcovers hrest
      · rw [hjoin]
        exact hedge.forks
    · simp at hother
  · intro d other hother
    rw [staticChild_splitChild hnext] at hother
    split at hother
    · obtain rfl : moved = other := by simpa using hother
      rw [hjoin]
      exact hbelow.withPfx _
    · simp at hother
  · intro kind _ name hhead
    exact slotToken_ne_byte _ _ c (hedge.next_token hpos hnext hhead)
  · intro kind other hother
    simp [slotChild_splitChild] at hother
  · intro kind other hother
    simp [slotChild_splitChild] at hother

/-! ## The recursion -/

/-- A static child that lies on the inserted word's path and below which the
words fork, with the rest of the word inserted into it. -/
theorem put_below {b : Byte} {text : Bytes}
    {tail : List Token} (hpfx : child.pfx = b :: text)
    (hname : child.paramName = [])
    (hcovers : ∀ rest, (table (.byte b :: rest)).isSome → literal child.pfx <+: .byte b :: rest)
    (hforks : Forks (putRoute (after table (literal child.pfx)) tail index))
    (hinserted : Represents (width + 1) child
      (putRoute (after table (literal child.pfx)) tail index)) :
    StaticEdge (putRoute table (.byte b :: (literal text ++ tail)) index) b child ∧
      Represents (width + 1) child (after
        (putRoute table (.byte b :: (literal text ++ tail)) index) (literal child.pfx)) := by
  have hword : .byte b :: (literal text ++ tail) = literal child.pfx ++ tail := by simp [hpfx]
  have hafter : after (putRoute table (literal child.pfx ++ tail) index) (literal child.pfx) =
      putRoute (after table (literal child.pfx)) tail index := after_put_append ..
  rw [hword, hafter]
  refine ⟨⟨hname, ⟨text, hpfx⟩, ?_, ?_⟩, hinserted⟩
  · intro rest hrest
    by_cases heq : Token.byte b :: rest = literal child.pfx ++ tail
    · rw [heq]
      exact prefix_append _ _
    · unfold putRoute put at hrest
      rw [if_neg heq] at hrest
      split at hrest
      · simp at hrest
      · exact hcovers _ hrest
  · rw [hafter]
    exact hforks

theorem Forks.exists_word (hforks : Forks table) :
    ∃ word, (table word).isSome := by
  rcases hforks with hnil | ⟨slot, _, rest, hrest⟩ | ⟨a, _, _, ⟨rest, hrest⟩, _⟩
  · exact ⟨[], hnil⟩
  · exact ⟨slot :: rest, hrest⟩
  · exact ⟨.byte a :: rest, hrest⟩

/-- Below the common part of a split, the old words and the inserted one
continue differently. -/
theorem forks_of_split {b c : Byte} {tail : List Token} {text : Bytes}
    (hedge : StaticEdge table b child) (hnext : child.pfx.drop count = c :: text)
    (htail : tail = [] ∨ (∃ slot tokens, tail = slot :: tokens ∧ isSlot slot = true) ∨
      ∃ d tokens, tail = .byte d :: tokens ∧ c ≠ d)
    (index : ℕ) :
    Forks (putRoute (after table (literal (child.pfx.take count))) tail index) := by
  rcases htail with rfl | ⟨slot, tokens, rfl, hslot⟩ | ⟨d, tokens, rfl, hne⟩
  · left
    simp [put_self]
  · right; left
    exact ⟨slot, hslot, hasHead_putRoute_self _ _ _ _⟩
  · right; right
    have hold : HasHead (after table (literal (child.pfx.take count))) (.byte c) := by
      obtain ⟨word, hword⟩ := hedge.forks.exists_word
      refine ⟨literal text ++ word, ?_⟩
      have hjoin : literal (child.pfx.take count) ++ .byte c :: (literal text ++ word) =
          literal child.pfx ++ word := by
        conv_rhs => rw [← take_append_drop _ child.pfx, hnext]
        simp [literal_append]
      rw [after_apply, hjoin]
      exact hword
    exact ⟨c, d, hne, hasHead_byte_putRoute _ _ hold, hasHead_putRoute_self _ _ _ _⟩

/-- One step of an insertion: the child stands for the words below the tokens that were read,
and when it has got the rest of the word, the node has got the word. -/
theorem Descends.represents {own : List (Node × ℕ)} {below : Node} {rest' : Bytes}
    {back : Node → Node} {tail : List Token}
    (hstep : Descends node fb rest own word below rest' back)
    (hrep : Represents width node table) (hwidth : width < 32768)
    (htail : patternTokens rest' = some tail) :
    ∃ table', Represents width below table' ∧ ∀ below' : Node, below'.pfx = below.pfx →
      below'.paramName = below.paramName →
      Represents (width + 1) below' (putRoute table' tail index) →
      Represents (width + 1) (back below') (putRoute table (word ++ tail) index) := by
  have hlength : toInt16 node.children.length = node.children.length :=
    toInt16_of_lt (by have := hrep.narrow; omega)
  cases hstep with
  | slot hparam hsplit hchild hname =>
    refine ⟨_, (hrep.slot hchild).2, fun below' hpfx hname' hinserted => ?_⟩
    rw [hname] at hinserted
    refine represents_setSlot hrep hchild (hname'.trans hname) ?_ hinserted
    rw [hpfx]
    exact hrep.prefixes _ (Node.mem_of_child hchild)
  | @newSlot content rest' hparam hsplit hnone =>
    have hunused : ¬ HasHead table
        (slotToken (paramContent content).1 (paramContent content).2) := by
      intro hhead
      cases hchild : node.slotChild (paramContent content).2 with
      | none =>
        obtain ⟨_, _, _, _, _, _, _, _, noSlot, _, _⟩ := hrep
        exact noSlot _ hchild _ hhead
      | some child => exact hnone _ hchild ((hrep.slot hchild).1.name _ hhead).symm
    have hfresh := represents_fresh width [slash] (paramContent content).1 (paramContent content).2
    rw [← after_eq_empty hunused] at hfresh
    exact ⟨_, hfresh, fun below' hpfx hname hinserted =>
      represents_withSlot hlength hrep hname (by rw [hpfx]; simp) hinserted⟩
  | follow hparam hchild hinside =>
    obtain ⟨hstatic, -, -⟩ := Node.existing_eq_some.mp hchild
    obtain ⟨hedge, hbelow⟩ := hrep.static hstatic
    obtain ⟨text, htext⟩ := hedge.head
    refine ⟨_, hbelow, fun below' hpfx hname hinserted => ?_⟩
    have hword : literal below.pfx ++ tail = .byte fb :: (literal text ++ tail) := by
      simp [htext]
    rw [hword]
    exact represents_setStatic hrep hstatic (put_below (hpfx.trans htext)
      (hname.trans hedge.paramName) (hpfx ▸ hedge.covers) (hpfx ▸ hedge.forks.putRoute tail index)
      (by rwa [hpfx]))
  | @split child count hparam hchild hinside hcount hpos =>
    obtain ⟨hstatic, -, -⟩ := Node.existing_eq_some.mp hchild
    obtain ⟨hedge, hbelow⟩ := hrep.static hstatic
    obtain ⟨text, htext⟩ := hedge.head
    obtain ⟨hle, -, c, old, hold, hapart⟩ := exists_split hinside
    rw [← hcount] at hle hold hapart
    have hwidth : 1 ≤ width :=
      (length_pos_of_mem (Node.mem_of_child (Node.staticChild_eq hstatic).2)).trans_le hrep.narrow
    refine ⟨_, represents_splitChild hedge hbelow hwidth hpos hold,
      fun below' hpfx hname hinserted => ?_⟩
    obtain ⟨k, rfl⟩ : ∃ k, count = k + 1 := ⟨count - 1, by omega⟩
    have hhead : child.pfx.take (k + 1) = fb :: text.take k := by simp [htext]
    have hforks : Forks (putRoute (after table (literal (child.pfx.take (k + 1)))) tail index) := by
      refine forks_of_split hedge hold ?_ _
      have hk : k ≤ (segmentTail rest).length := by simpa [staticSegment] using hle
      rcases patternTokens_at_segmentTail rest hk (by simpa using htail) with h | h | h
      · exact .inl h
      · exact .inr (.inl h)
      · obtain ⟨d, tokens, rfl, hd⟩ := h
        refine .inr (.inr ⟨d, tokens, rfl, ?_⟩)
        rintro rfl
        exact hapart hd
    have hword : literal (child.pfx.take (k + 1)) ++ tail =
        .byte fb :: (literal (text.take k) ++ tail) := by
      simp [htext]
    rw [hword]
    have hpfx' : below'.pfx = child.pfx.take (k + 1) := hpfx
    exact represents_setStatic hrep hstatic (put_below (hpfx'.trans hhead) hname
      (fun word hword => hpfx' ▸ ((List.take_prefix _ _).map _).trans (hedge.covers _ hword))
      (by rwa [hpfx']) (by rwa [hpfx']))
  | create hparam hchild =>
    have hstatic : node.staticChild fb = none := by
      rw [Option.eq_none_iff_forall_ne_some]
      intro child hfound
      obtain ⟨hedge, -⟩ := hrep.static hfound
      obtain ⟨text, htext⟩ := hedge.head
      have hapart := hchild child (Node.existing_eq_some.mpr
        ⟨hfound, hedge.paramName, by simp [htext]⟩)
      simp [htext, staticSegment, commonLength] at hapart
    refine ⟨_, represents_fresh _ _ [] _, fun below' hpfx hname hinserted => ?_⟩
    have hword : literal (staticSegment (fb :: rest)) ++ tail =
        .byte fb :: (literal (segmentTail rest) ++ tail) := by
      simp [staticSegment]
    rw [hword]
    by_cases hfb : fb < 128
    · have hnone : ¬ HasHead table (.byte fb) := by
        obtain ⟨_, _, _, _, _, noStatic, _, _, _, _, _⟩ := hrep
        exact noStatic _ hfb hstatic
      have hempty : after table (literal (staticSegment (fb :: rest))) = emptyTable := by
        funext word
        by_contra hsome
        exact hnone ⟨literal _ ++ word, Option.isSome_iff_ne_none.mpr hsome⟩
      have hforks : Forks (putRoute emptyTable tail index) := by
        rcases patternTokens_at_segmentTail rest le_rfl
          (by simpa [staticSegment] using htail) with rfl | ⟨slot, _, rfl, hslot⟩ | ⟨_, _, _, h⟩
        · left
          simp [put_self]
        · exact .inr (.inl ⟨slot, hslot, hasHead_putRoute_self _ _ _ _⟩)
        · simp at h
      exact represents_pushStatic hrep hfb hstatic hlength (put_below hpfx hname
        (fun word hhead => absurd ⟨word, hhead⟩ hnone) (by rwa [hpfx, hempty])
        (by rwa [hpfx, hempty]))
    · refine represents_pushDead hrep hfb ?_
      rw [hpfx]
      simp [staticSegment]

theorem insert_represents {path : Bytes} (hrep : Represents width node table)
    (hwidth : width < 32768) (hfuel : path.length < fuel)
    (htokens : patternTokens path = some tokens) :
    (insertRecursive fuel node path index).2 = true ∧
      Represents (width + 1) (insertRecursive fuel node path index).1
        (putRoute table tokens index) := by
  induction fuel generalizing node table path tokens with
  | zero => omega
  | succ fuel ih =>
    cases path with
    | nil =>
      obtain rfl : [] = tokens := by simpa using htokens
      exact ⟨rfl, represents_terminal hrep _⟩
    | cons fb rest =>
      rcases insertRecursive_step node fb rest with
        ⟨own, word, below, rest', back, hstep, heq⟩ | ⟨hunclosed, -⟩
      · rw [(heq _).2]
        rw [hstep.reads] at htokens
        obtain ⟨tail, htail, rfl⟩ := Option.map_eq_some_iff.mp htokens
        obtain ⟨table', hbelow, hback⟩ := hstep.represents hrep hwidth htail
        obtain ⟨hok, hinserted⟩ := ih hbelow (by have := hstep.shorter; omega) htail
        obtain ⟨hpfx, hname, -⟩ := insertRecursive_label fuel below rest' index
        exact ⟨hok, hback _ hpfx hname hinserted⟩
      · rw [hunclosed] at htokens
        cases htokens

end AstraApi.Routing
