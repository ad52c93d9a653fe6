import AstraApi.Router.Insertion

/-!
# The shape of the trie

What `Router::insert_recursive` keeps at every node of the trie, at those that no index
points at any more too: the dispatch entries are the positions of the static children, and
the two slots hold children of their kind.  A split puts a node between a child and its
parent, and the search below the parent does not notice.
-/

namespace AstraApi.Routing

open List

/-! ## Nodes of a trie -/

inductive Node.All (P : Node → Prop) : Node → Prop where
  | intro {node : Node} (here : P node) (below : ∀ child ∈ node.children, Node.All P child) :
      Node.All P node

namespace Node

variable {P : Node → Prop} {node : Node}

theorem All.here (h : node.All P) : P node := by
  cases h with
  | intro here _ => exact here

theorem All.child (h : node.All P) {child : Node} (hchild : child ∈ node.children) :
    child.All P := by
  cases h with
  | intro _ below => exact below _ hchild

/-- A child more, or another one in the place of a child. -/
theorem All.replace (h : node.All P) {node' fresh : Node} (here : P node') (hfresh : fresh.All P)
    (hchildren : ∀ child ∈ node'.children, child ∈ node.children ∨ child = fresh) :
    node'.All P := by
  refine .intro here fun child hchild => ?_
  rcases hchildren child hchild with hold | rfl
  · exact h.child hold
  · exact hfresh

theorem mem_setChild {index : ℤ} {fresh child : Node}
    (h : child ∈ (node.setChild index fresh).children) : child ∈ node.children ∨ child = fresh :=
  mem_or_eq_of_mem_set h

theorem mem_pushChild {fresh child : Node} (h : child ∈ (node.pushChild fresh).children) :
    child ∈ node.children ∨ child = fresh :=
  (mem_append.mp h).imp_right mem_singleton.mp

/-- Fewer children than `int16_t` has positions. -/
def Narrow (node : Node) : Prop := node.children.length < 32768

def StaticAt (node : Node) (b : Byte) (i : ℕ) : Prop :=
  ∃ child, node.children[i]? = some child ∧ child.paramName = [] ∧ child.pfx.head? = some b

/-- What holds at every node of a trie for patterns in ASCII. -/
structure Shaped (node : Node) : Prop where
  prefixes : ∀ child ∈ node.children, child.paramName = [] → child.pfx ≠ []
  ascii : ∀ child ∈ node.children, child.paramName = [] → ∀ b ∈ child.pfx, b < 128
  distinct : ∀ b i j, node.StaticAt b i → node.StaticAt b j → i = j
  dispatch : ∀ b, (∃ i : ℕ, node.dispatch b = i ∧ node.StaticAt b i) ∨
    node.dispatch b = -1 ∧ ∀ i, ¬ node.StaticAt b i
  collision : node.hasDispatchCollision = false
  slot : ∀ kind, node.slotIndex kind = -1 ∨
    ∃ (i : ℕ) (child : Node), node.slotIndex kind = i ∧ node.children[i]? = some child ∧
      child.paramName ≠ [] ∧ child.isCatchAll = kind

theorem shaped_fresh (text name : Bytes) (kind : Bool) :
    Shaped { pfx := text, paramName := name, isCatchAll := kind } where
  prefixes := by simp
  ascii := by simp
  distinct := by simp [StaticAt]
  dispatch := by simp [StaticAt]
  collision := rfl
  slot kind := by cases kind <;> exact .inl rfl

theorem all_fresh {text name : Bytes} {kind : Bool}
    (h : P { pfx := text, paramName := name, isCatchAll := kind }) :
    All P { pfx := text, paramName := name, isCatchAll := kind } :=
  .intro h fun _ hchild => absurd hchild not_mem_nil

/-! ## One child changes -/

section SetChild

variable {child child' : Node} {i : ℕ} (hat : node.children[i]? = some child)
  (hpfx : child'.pfx.head? = child.pfx.head?) (hname : child'.paramName = child.paramName)

include hat hpfx hname

theorem staticAt_setChild (b : Byte) (j : ℕ) :
    (node.setChild i child').StaticAt b j ↔ node.StaticAt b j := by
  obtain ⟨hi, rfl⟩ := List.getElem?_eq_some_iff.mp hat
  unfold StaticAt setChild
  by_cases hij : i = j
  · subst hij
    simp [hi, hpfx, hname]
  · simp [hij]

theorem Shaped.setChild (h : node.Shaped)
    (hkind : child.paramName ≠ [] → child'.isCatchAll = child.isCatchAll)
    (hascii : child'.paramName = [] → ∀ b ∈ child'.pfx, b < 128) :
    (node.setChild i child').Shaped where
  prefixes other hother hstatic := by
    rcases mem_setChild hother with hold | rfl
    · exact h.prefixes _ hold hstatic
    · intro hnil
      have hpos := h.prefixes _ (mem_of_getElem? hat) (hname ▸ hstatic)
      rw [hnil, head?_nil, eq_comm, head?_eq_none_iff] at hpfx
      exact hpos hpfx
  ascii other hother hstatic := by
    rcases mem_setChild hother with hold | rfl
    · exact h.ascii _ hold hstatic
    · exact hascii hstatic
  distinct b j k hj hk :=
    h.distinct b j k ((staticAt_setChild hat hpfx hname b j).mp hj)
      ((staticAt_setChild hat hpfx hname b k).mp hk)
  dispatch b := by
    simp only [staticAt_setChild hat hpfx hname]
    exact h.dispatch b
  collision := h.collision
  slot kind := by
    refine (h.slot _).imp_right ?_
    rintro ⟨j, slotChild, hindex, hslot, hnamed, hsame⟩
    by_cases hij : i = j
    · subst hij
      obtain rfl : child = slotChild := Option.some.inj (hat.symm.trans hslot)
      obtain ⟨hi, -⟩ := List.getElem?_eq_some_iff.mp hat
      exact ⟨i, child', hindex, getElem?_set_self hi, hname ▸ hnamed, (hkind hnamed).trans hsame⟩
    · exact ⟨j, slotChild, hindex, (getElem?_set_ne hij).trans hslot, hnamed, hsame⟩

end SetChild

/-! ## One child more -/

theorem staticAt_push {node' fresh : Node} (hchildren : node'.children = node.children ++ [fresh])
    (b : Byte) (i : ℕ) :
    node'.StaticAt b i ↔ node.StaticAt b i ∨
      i = node.children.length ∧ fresh.paramName = [] ∧ fresh.pfx.head? = some b := by
  unfold StaticAt
  rw [hchildren]
  rcases lt_trichotomy i node.children.length with hlt | rfl | hgt
  · simp [getElem?_append_left hlt, hlt.ne]
  · simp
  · have hold : node.children[i]? = none := getElem?_eq_none hgt.le
    have hnew : (node.children ++ [fresh])[i]? = none :=
      getElem?_eq_none (by rw [length_append, length_singleton]; omega)
    simp [hold, hnew, hgt.ne']

theorem StaticAt.lt {b : Byte} {i : ℕ} (h : node.StaticAt b i) : i < node.children.length := by
  obtain ⟨child, hat, -⟩ := h
  exact (List.getElem?_eq_some_iff.mp hat).1

theorem Shaped.slot_push (h : node.Shaped) {node' fresh : Node}
    (hchildren : node'.children = node.children ++ [fresh]) {kind : Bool}
    (hslot : node'.slotIndex kind = node.slotIndex kind) :
    node'.slotIndex kind = -1 ∨
      ∃ (i : ℕ) (child : Node), node'.slotIndex kind = i ∧ node'.children[i]? = some child ∧
        child.paramName ≠ [] ∧ child.isCatchAll = kind := by
  rw [hslot, hchildren]
  refine (h.slot _).imp_right ?_
  rintro ⟨i, child, hindex, hat, hnamed, hkind⟩
  obtain ⟨hi, -⟩ := List.getElem?_eq_some_iff.mp hat
  exact ⟨i, child, hindex, (getElem?_append_left hi).trans hat, hnamed, hkind⟩

theorem Shaped.pushStatic (h : node.Shaped) {fresh : Node} {b : Byte}
    (hnone : node.dispatch b = -1) (hname : fresh.paramName = [])
    (hpfx : fresh.pfx.head? = some b) (hascii : ∀ c ∈ fresh.pfx, c < 128) :
    Shaped
      { node.pushChild fresh with
        hasDispatchCollision := node.hasDispatchCollision ||
          (decide (0 ≤ node.dispatch b) && decide (node.dispatch b ≠ node.children.length))
        dispatch := Function.update node.dispatch b node.children.length } := by
  have hunused : ∀ i, ¬ node.StaticAt b i := by
    rcases h.dispatch b with ⟨i, hi, -⟩ | ⟨-, hunused⟩
    · omega
    · exact hunused
  set node' : Node :=
    { node.pushChild _ with
      hasDispatchCollision := node.hasDispatchCollision ||
        (decide (0 ≤ node.dispatch b) && decide (node.dispatch b ≠ node.children.length))
      dispatch := Function.update _ b _ } with hnode'
  have hchildren : node'.children = node.children ++ [fresh] := rfl
  have hself (i : ℕ) : node'.StaticAt b i ↔ i = node.children.length := by
    rw [staticAt_push hchildren]
    simp [hunused, hname, hpfx]
  have hother {c : Byte} (hcb : c ≠ b) (i : ℕ) : node'.StaticAt c i ↔ node.StaticAt c i := by
    rw [staticAt_push hchildren, hpfx]
    simp [hcb.symm]
  refine ⟨?_, ?_, ?_, ?_, ?_, ?_⟩
  · intro child hchild hstatic hnil
    rcases mem_pushChild hchild with hold | rfl
    · exact h.prefixes _ hold hstatic hnil
    · rw [hnil] at hpfx
      cases hpfx
  · intro child hchild hstatic
    rcases mem_pushChild hchild with hold | rfl
    · exact h.ascii _ hold hstatic
    · exact hascii
  · intro c i j hi hj
    by_cases hcb : c = b
    · subst hcb
      rw [hself] at hi hj
      exact hi.trans hj.symm
    · rw [hother hcb] at hi hj
      exact h.distinct c i j hi hj
  · intro c
    by_cases hcb : c = b
    · subst hcb
      exact .inl ⟨_, Function.update_self .., (hself _).mpr rfl⟩
    · have hkeep : node'.dispatch c = node.dispatch c := Function.update_of_ne hcb _ _
      simp only [hother hcb, hkeep]
      exact h.dispatch c
  · simp [hnode', h.collision, hnone]
  · exact fun kind => h.slot_push hchildren rfl

theorem Shaped.pushSlot (h : node.Shaped) {fresh node' : Node} {kind : Bool}
    (hname : fresh.paramName ≠ []) (hkind : fresh.isCatchAll = kind)
    (hchildren : node'.children = node.children ++ [fresh])
    (hdispatch : node'.dispatch = node.dispatch)
    (hcollision : node'.hasDispatchCollision = node.hasDispatchCollision)
    (hself : node'.slotIndex kind = node.children.length)
    (hother : node'.slotIndex (!kind) = node.slotIndex (!kind)) : node'.Shaped := by
  have hmem {child : Node} (hchild : child ∈ node'.children) (hstatic : child.paramName = []) :
      child ∈ node.children := by
    rw [hchildren] at hchild
    rcases mem_pushChild hchild with hold | rfl
    · exact hold
    · exact absurd hstatic hname
  have hat (b : Byte) (i : ℕ) : node'.StaticAt b i ↔ node.StaticAt b i := by
    rw [staticAt_push hchildren]
    simp [hname]
  refine ⟨?_, ?_, ?_, ?_, ?_, ?_⟩
  · exact fun child hchild hstatic => h.prefixes _ (hmem hchild hstatic) hstatic
  · exact fun child hchild hstatic => h.ascii _ (hmem hchild hstatic) hstatic
  · simp only [hat]
    exact h.distinct
  · simp only [hat, hdispatch]
    exact h.dispatch
  · rw [hcollision, h.collision]
  · intro kind'
    by_cases hsame : kind' = kind
    · subst hsame
      refine .inr ⟨_, fresh, hself, ?_, hname, hkind⟩
      rw [hchildren]
      exact getElem?_concat_length
    · obtain rfl : kind' = !kind := by
        cases kind <;> cases kind' <;> first | rfl | exact absurd rfl hsame
      exact h.slot_push hchildren hother

/-! ## A split -/

theorem shaped_splitChild {child : Node} {count : ℕ} {c : Byte} {text : Bytes}
    (hname : child.paramName = []) (hascii : ∀ b ∈ child.pfx, b < 128)
    (hnext : child.pfx.drop count = c :: text) : (splitChild child count).Shaped := by
  have hc : c < 128 := hascii c (mem_of_mem_drop (hnext ▸ mem_cons_self))
  have hat (b : Byte) (i : ℕ) : (splitChild child count).StaticAt b i ↔ i = 0 ∧ b = c := by
    unfold StaticAt splitChild
    cases i with
    | zero => simp [hname, hnext, eq_comm]
    | succ i => simp
  refine ⟨?_, ?_, ?_, ?_, rfl, ?_⟩
  · intro moved hmoved _
    obtain rfl := mem_singleton.mp hmoved
    simp [hnext]
  · intro moved hmoved _ b hb
    obtain rfl := mem_singleton.mp hmoved
    exact hascii b (mem_of_mem_drop hb)
  · intro b i j hi hj
    exact ((hat b i).mp hi).1.trans ((hat b j).mp hj).1.symm
  · intro b
    rw [dispatch_splitChild hnext]
    by_cases hcb : c = b
    · subst hcb
      exact .inl ⟨0, by simp [hc], (hat c 0).mpr ⟨rfl, rfl⟩⟩
    · exact .inr ⟨if_neg fun h => hcb h.1, fun i hi => hcb ((hat b i).mp hi).2.symm⟩
  · intro kind
    exact .inl (slotIndex_splitChild _)

end Node

/-! ## What a step keeps -/

/-- A byte of ASCII, or a parameter with a name. -/
def Token.Sound : Token → Prop
  | .byte b => b < 128
  | .param name => name ≠ []
  | .catchAll name => name ≠ []

theorem sound_slotToken (name : Bytes) (kind : Bool) : (slotToken name kind).Sound ↔ name ≠ [] := by
  cases kind <;> rfl

namespace Node

variable {node : Node}

theorem child_eq_some {index : ℤ} {child : Node} (h : node.child index = some child) :
    ∃ i : ℕ, index = i ∧ node.children[i]? = some child := by
  have hindex := nonneg_of_child h
  rw [Node.child, if_pos hindex] at h
  exact ⟨index.toNat, (Int.toNat_of_nonneg hindex).symm, h⟩

/-- A byte of ASCII without a child to follow has no static child. -/
theorem Shaped.dispatch_of_existing {node : Node} (h : node.Shaped) {b : Byte} (hb : b < 128)
    (hnone : ∀ child, node.existing b = some child → child.pfx.head? ≠ some b) :
    node.dispatch b = -1 := by
  rcases h.dispatch b with ⟨i, hi, child, hat, hname, hpfx⟩ | ⟨hnone, -⟩
  · have hfound : node.existing b = some child := by
      have hne : child.pfx ≠ [] := by
        rintro hnil
        rw [hnil] at hpfx
        cases hpfx
      rw [Node.existing, if_pos hb, hi, Node.child, if_pos (Int.natCast_nonneg i),
        Int.toNat_natCast, hat]
      simp [hname, hne]
    exact absurd hpfx (hnone _ hfound)
  · exact hnone

theorem children_withStatic (b : Byte) (child : Node) :
    (node.withStatic b child).children = node.children ++ [child] := by
  unfold withStatic
  split <;> rfl

theorem narrow_append {node' child : Node} (hchildren : node'.children = node.children ++ [child])
    (h : node'.All Narrow) : child.All Narrow ∧ node.All Narrow := by
  have hlength := h.here
  rw [Narrow, hchildren, length_append] at hlength
  refine ⟨h.child (by simp [hchildren]), .intro (by unfold Narrow; omega) fun other hother => ?_⟩
  exact h.child (by rw [hchildren]; exact mem_append_left _ hother)

theorem narrow_setChild {index : ℤ} {child child' : Node} (hat : node.child index = some child)
    (h : (node.setChild index child').All Narrow) :
    child'.All Narrow ∧ (child.All Narrow → node.All Narrow) := by
  obtain ⟨i, rfl, hget⟩ := child_eq_some hat
  obtain ⟨hi, rfl⟩ := List.getElem?_eq_some_iff.mp hget
  refine ⟨h.child (mem_set hi _), fun hchild => .intro ?_ fun other hother => ?_⟩
  · have hlength := h.here
    rwa [Narrow, Node.setChild, length_set] at hlength
  · obtain ⟨j, hj, rfl⟩ := getElem_of_mem hother
    by_cases hij : i = j
    · subst hij
      exact hchild
    · refine h.child (mem_of_getElem? (i := j) ?_)
      rw [Node.setChild, Int.toNat_natCast, getElem?_set_ne hij, getElem?_eq_getElem]

end Node

section Step

variable {node below : Node} {fb : Byte} {rest rest' : Bytes} {own : List (Node × ℕ)}
  {word tokens : List Token} {back : Node → Node}

theorem existing_child {b : Byte} {child : Node} (h : node.existing b = some child) :
    node.child (node.dispatch b) = some child :=
  (Node.staticChild_eq (Node.existing_eq_some.mp h).1).2

/-- No step takes children away. -/
theorem Descends.narrow (h : Descends node fb rest own word below rest' back) {below' : Node}
    (hback : (back below').All Node.Narrow) :
    below'.All Node.Narrow ∧ (below.All Node.Narrow → node.All Node.Narrow) := by
  cases h with
  | slot hparam hsplit hchild => exact Node.narrow_setChild hchild hback
  | newSlot hparam hsplit =>
    exact (Node.narrow_append (children_withSlot _ _) hback).imp_right fun h _ => h
  | follow hparam hchild hinside => exact Node.narrow_setChild (existing_child hchild) hback
  | split hparam hchild hinside hcount hpos =>
    obtain ⟨hbelow, hnode⟩ := Node.narrow_setChild (existing_child hchild) hback
    refine ⟨hbelow, fun hsplit => hnode ?_⟩
    have hmoved := hsplit.child mem_cons_self
    exact .intro hmoved.here fun other hother => hmoved.child hother
  | create hparam hchild =>
    exact (Node.narrow_append (Node.children_withStatic _ _) hback).imp_right fun h _ => h

/-- A static child with more than `count` bytes, all of ASCII. -/
structure Splittable (child : Node) (count : ℕ) : Prop where
  name : child.paramName = []
  ascii : ∀ b ∈ child.pfx, b < 128
  pos : 0 < count
  lt : count < child.pfx.length

/-- What is read and what is left are again tokens of that kind. -/
theorem Descends.sound (h : Descends node fb rest own word below rest' back)
    (htokens : patternTokens (fb :: rest) = some tokens)
    (hsound : ∀ token ∈ tokens, token.Sound) :
    (∀ token ∈ word, token.Sound) ∧
      ∃ tail, patternTokens rest' = some tail ∧ ∀ token ∈ tail, token.Sound := by
  rw [h.reads] at htokens
  obtain ⟨tail, htail, rfl⟩ := Option.map_eq_some_iff.mp htokens
  rw [forall_mem_append] at hsound
  exact ⟨hsound.1, tail, htail, hsound.2⟩

theorem Descends.shaped_below (h : Descends node fb rest own word below rest' back)
    (hnode : node.All Node.Shaped) :
    below.All Node.Shaped ∧ ∀ split ∈ own, Splittable split.1 split.2 := by
  have hnone (split : Node × ℕ) (hsplit : split ∈ ([] : List _)) :
      Splittable split.1 split.2 := absurd hsplit not_mem_nil
  cases h with
  | slot hparam hsplit hchild => exact ⟨hnode.child (Node.mem_of_child hchild), hnone⟩
  | newSlot hparam hsplit => exact ⟨Node.all_fresh (Node.shaped_fresh _ _ _), hnone⟩
  | follow hparam hchild hinside =>
    exact ⟨hnode.child (Node.mem_of_child (existing_child hchild)), hnone⟩
  | @split child count hparam hchild hinside hcount hpos =>
    obtain ⟨-, hname, -⟩ := Node.existing_eq_some.mp hchild
    have hmem := Node.mem_of_child (existing_child hchild)
    have hascii := hnode.here.ascii _ hmem hname
    obtain ⟨-, -, c, text, hnext, -⟩ := exists_split hinside
    rw [← hcount] at hnext
    refine ⟨.intro (Node.shaped_splitChild hname hascii hnext) fun moved hmoved => ?_, ?_⟩
    · obtain rfl := mem_singleton.mp hmoved
      have hold := hnode.child hmem
      exact .intro ⟨hold.here.prefixes, hold.here.ascii, hold.here.distinct, hold.here.dispatch,
        hold.here.collision, hold.here.slot⟩ fun other hother => hold.child hother
    · intro split hsplit
      obtain rfl := mem_singleton.mp hsplit
      refine ⟨hname, hascii, hpos, show count < child.pfx.length from ?_⟩
      have hlength := congrArg length hnext
      rw [length_drop, length_cons] at hlength
      omega
  | create hparam hchild => exact ⟨Node.all_fresh (Node.shaped_fresh _ [] _), hnone⟩

theorem Descends.shaped_back (h : Descends node fb rest own word below rest' back)
    (hnode : node.All Node.Shaped) (hsound : ∀ token ∈ word, token.Sound)
    {below' : Node} (hbelow : below'.All Node.Shaped)
    (hpfx : below'.pfx = below.pfx) (hname : below'.paramName = below.paramName)
    (hkind : below'.isCatchAll = below.isCatchAll) (hnarrow : (back below').Narrow) :
    (back below').All Node.Shaped := by
  have hset {index : ℤ} {child : Node} (hat : node.child index = some child)
      (hhead : below'.pfx.head? = child.pfx.head?) (hsub : below'.pfx ⊆ child.pfx)
      (hname : below'.paramName = child.paramName)
      (hkind : child.paramName ≠ [] → below'.isCatchAll = child.isCatchAll) :
      (node.setChild index below').All Node.Shaped := by
    obtain ⟨i, rfl, hget⟩ := Node.child_eq_some hat
    refine hnode.replace ?_ hbelow fun other => Node.mem_setChild
    refine hnode.here.setChild hget hhead hname hkind fun hstatic b hb => ?_
    exact hnode.here.ascii _ (mem_of_getElem? hget) (hname ▸ hstatic) b (hsub hb)
  have hindex {node' : Node} (hchildren : node'.children = node.children ++ [below'])
      (hnarrow : node'.Narrow) : toInt16 node.children.length = node.children.length := by
    rw [Node.Narrow, hchildren, length_append, length_singleton] at hnarrow
    exact toInt16_of_lt (by omega)
  have hmem {node' other : Node} (hchildren : node'.children = node.children ++ [below'])
      (hother : other ∈ node'.children) : other ∈ node.children ∨ other = below' := by
    rw [hchildren] at hother
    exact Node.mem_pushChild hother
  cases h with
  | slot hparam hsplit hchild =>
    exact hset hchild (congrArg _ hpfx) (hpfx ▸ List.Subset.refl _) hname fun _ => hkind
  | @newSlot content rest' hparam hsplit =>
    have hchildren := @children_withSlot node (paramContent content).2 below'
    have hlength := hindex hchildren hnarrow
    have hnamed : below'.paramName ≠ [] :=
      hname ▸ (sound_slotToken _ _).mp (hsound _ mem_cons_self)
    refine hnode.replace ?_ hbelow fun other => hmem hchildren
    exact hnode.here.pushSlot hnamed hkind hchildren (dispatch_withSlot _ _)
      (collision_withSlot _ _) ((slotIndex_withSlot_self _ _).trans hlength)
      (slotIndex_withSlot_other _ _)
  | follow hparam hchild hinside =>
    exact hset (existing_child hchild) (congrArg _ hpfx) (hpfx ▸ List.Subset.refl _) hname
      fun _ => hkind
  | @split child count hparam hchild hinside hcount hpos =>
    obtain ⟨-, hstatic, -⟩ := Node.existing_eq_some.mp hchild
    have htake : below'.pfx = child.pfx.take count := hpfx
    refine hset (existing_child hchild) ?_ ?_ (hname.trans hstatic.symm)
      fun hnamed => absurd hstatic hnamed
    · rw [htake, head?_take, if_neg (by omega)]
    · rw [htake]
      exact take_subset _ _
  | create hparam hchild =>
    have hchildren := node.children_withStatic fb below'
    have hlength := hindex hchildren hnarrow
    have hascii (b : Byte) (hb : b ∈ staticSegment (fb :: rest)) : b < 128 :=
      hsound _ (mem_map_of_mem hb)
    have hfb : fb < 128 := hascii _ mem_cons_self
    have hnone : node.dispatch fb = -1 := by
      refine hnode.here.dispatch_of_existing hfb fun child hfound hhead => ?_
      have hapart := hchild _ hfound
      obtain ⟨text, htext⟩ := head?_eq_some_iff.mp hhead
      simp [htext, staticSegment, commonLength] at hapart
    refine hnode.replace ?_ hbelow fun other => hmem hchildren
    unfold Node.withStatic
    rw [if_pos hfb, hlength]
    exact hnode.here.pushStatic hnone hname (by rw [hpfx]; rfl) (hpfx ▸ hascii)

end Step

/-! ## A whole insertion -/

theorem narrow_of_insertRecursive (fuel : ℕ) {node : Node} {path : Bytes} {index : ℤ}
    (h : (insertRecursive fuel node path index).1.All Node.Narrow) : node.All Node.Narrow := by
  induction fuel generalizing node path with
  | zero => exact h
  | succ fuel ih =>
    cases path with
    | nil => exact .intro h.here fun child hchild => h.child hchild
    | cons fb rest =>
      rcases insertRecursive_step node fb rest with
        ⟨own, word, below, rest', back, hstep, heq⟩ | ⟨-, heq⟩
      · rw [(heq _).2] at h
        obtain ⟨hbelow, hnode⟩ := hstep.narrow h
        exact hnode (ih hbelow)
      · rw [(heq _).2] at h
        exact h

theorem insertRecursive_shaped (fuel : ℕ) {node : Node} {path : Bytes} {tokens : List Token}
    {index : ℤ} (hnode : node.All Node.Shaped) (htokens : patternTokens path = some tokens)
    (hsound : ∀ token ∈ tokens, token.Sound)
    (hnarrow : (insertRecursive fuel node path index).1.All Node.Narrow) :
    (insertRecursive fuel node path index).1.All Node.Shaped := by
  induction fuel generalizing node path tokens with
  | zero => exact hnode
  | succ fuel ih =>
    cases path with
    | nil =>
      have hhere := hnode.here
      exact .intro ⟨hhere.prefixes, hhere.ascii, hhere.distinct, hhere.dispatch,
        hhere.collision, hhere.slot⟩ fun child hchild => hnode.child hchild
    | cons fb rest =>
      rcases insertRecursive_step node fb rest with
        ⟨own, word, below, rest', back, hstep, heq⟩ | ⟨-, heq⟩
      · rw [(heq _).2] at hnarrow ⊢
        obtain ⟨hword, tail, htail, hsound'⟩ := hstep.sound htokens hsound
        obtain ⟨hpfx, hname, hkind⟩ := insertRecursive_label _ _ _ _
        exact hstep.shaped_back hnode hword
          (ih (hstep.shaped_below hnode).1 htail hsound' (hstep.narrow hnarrow).1) hpfx hname
          hkind hnarrow.here
      · rw [(heq _).2]
        exact hnode

theorem splits_splittable (fuel : ℕ) {node : Node} {path : Bytes} {tokens : List Token}
    (hnode : node.All Node.Shaped) (htokens : patternTokens path = some tokens)
    (hsound : ∀ token ∈ tokens, token.Sound) :
    ∀ split ∈ splits fuel node path, Splittable split.1 split.2 := by
  induction fuel generalizing node path tokens with
  | zero => exact fun split hsplit => absurd hsplit not_mem_nil
  | succ fuel ih =>
    cases path with
    | nil => exact fun split hsplit => absurd hsplit not_mem_nil
    | cons fb rest =>
      rcases insertRecursive_step node fb rest with
        ⟨own, word, below, rest', back, hstep, heq⟩ | ⟨-, heq⟩
      · obtain ⟨-, tail, htail, hsound'⟩ := hstep.sound htokens hsound
        obtain ⟨hbelow, hown⟩ := hstep.shaped_below hnode
        rw [(heq _).1]
        intro split hsplit
        rcases mem_append.mp hsplit with hhere | hlater
        · exact hown _ hhere
        · exact ih hbelow htail hsound' _ hlater
      · rw [(heq _).1]
        exact fun split hsplit => absurd hsplit not_mem_nil

/-! ## The search across a split -/

theorem scanChildren_congr {attempt attempt' : Node → Bytes → MatchParams → Bool × MatchParams}
    {path : Bytes} (h : ∀ child text result, text.length < path.length →
      attempt child text result = attempt' child text result)
    (tried : ℤ) (ci : ℕ) (children : List Node) (result : MatchParams) :
    scanChildren attempt path tried ci children result =
      scanChildren attempt' path tried ci children result := by
  induction children generalizing ci result with
  | nil => rfl
  | cons child children ih =>
    rw [scanChildren, scanChildren]
    split
    · next hfits =>
      obtain ⟨-, -, hne, hprefix⟩ := hfits
      have hpos : 0 < child.pfx.length := by
        rw [length_pos_iff]
        rintro hnil
        simp [hnil] at hne
      have hle := (List.isPrefixOf_iff_prefix.mp hprefix).length_le
      rw [h _ _ _ (by rw [length_drop]; omega)]
      simp [ih]
    · exact ih _ _

theorem matchRecursive_fuel {fuel fuel' : ℕ} {path : Bytes} (hfuel : path.length < fuel)
    (hfuel' : path.length < fuel') (node : Node) (result : MatchParams) :
    matchRecursive fuel node path result = matchRecursive fuel' node path result := by
  induction fuel generalizing fuel' node path result with
  | zero => omega
  | succ fuel ih =>
    obtain ⟨fuel', rfl⟩ : ∃ k, fuel' = k + 1 := ⟨fuel' - 1, by omega⟩
    cases path with
    | nil => rfl
    | cons fb rest =>
      rw [length_cons] at hfuel hfuel'
      have hshorter (child : Node) (text : Bytes) (result : MatchParams)
          (htext : text.length < (fb :: rest).length) :
          matchRecursive fuel child text result = matchRecursive fuel' child text result := by
        rw [length_cons] at htext
        exact ih (by omega) (by omega) _ _
      have hfollow (child : Node) :
          (if child.paramName.isEmpty = true ∧ (!child.pfx.isEmpty) = true ∧
              child.pfx.isPrefixOf (fb :: rest) = true then
            matchRecursive fuel child ((fb :: rest).drop child.pfx.length) result
          else (false, result)) =
          if child.paramName.isEmpty = true ∧ (!child.pfx.isEmpty) = true ∧
              child.pfx.isPrefixOf (fb :: rest) = true then
            matchRecursive fuel' child ((fb :: rest).drop child.pfx.length) result
          else (false, result) := by
        split
        · next hfits =>
          apply hshorter
          have hpos : 0 < child.pfx.length := by
            rw [length_pos_iff]
            rintro hnil
            simp [hnil] at hfits
          rw [length_drop, length_cons]
          omega
        · rfl
      have hscan := scanChildren_congr hshorter
      have hparam (child : Node) (result : MatchParams) :=
        hshorter child (rest.dropWhile (· != slash)) result (by
          have hle := (dropWhile_suffix (l := rest) (· != slash)).length_le
          rw [length_cons]
          omega)
      simp only [matchRecursive, hfollow, hscan, hparam]

def followStatic (fuel : ℕ) (child : Node) (path : Bytes) (result : MatchParams) :
    Bool × MatchParams :=
  if child.paramName.isEmpty ∧ !child.pfx.isEmpty ∧ child.pfx.isPrefixOf path then
    matchRecursive fuel child (path.drop child.pfx.length) result
  else (false, result)

/-- The paths that the search accepts there, each with its route. -/
def accepted (child : Node) : Set (Bytes × ℤ) :=
  {pair | ∃ result, followStatic (pair.1.length + 1) child pair.1 {} = (true, result) ∧
    result.routeIndex = pair.2}

theorem followStatic_eq {child : Node} (hname : child.paramName = []) (hpfx : child.pfx ≠ [])
    (fuel : ℕ) (path : Bytes) (result : MatchParams) :
    followStatic fuel child path result =
      if child.pfx <+: path then matchRecursive fuel child (path.drop child.pfx.length) result
      else (false, result) := by
  unfold followStatic
  simp [hname, hpfx]

theorem matchRecursive_withPfx (fuel : ℕ) (child : Node) (text path : Bytes)
    (result : MatchParams) :
    matchRecursive fuel { child with pfx := text } path result =
      matchRecursive fuel child path result := by
  cases fuel with
  | zero => rfl
  | succ fuel => cases path <;> rfl

theorem matchRecursive_splitChild {child : Node} {count : ℕ} (h : Splittable child count)
    (fuel : ℕ) (path : Bytes) (result : MatchParams) :
    matchRecursive (fuel + 1) (splitChild child count) path result =
      if child.pfx.drop count <+: path then
        matchRecursive fuel child (path.drop (child.pfx.drop count).length) result
      else (false, result) := by
  obtain ⟨c, text, hnext⟩ := exists_cons_of_length_pos (l := child.pfx.drop count)
    (by rw [length_drop]; exact Nat.sub_pos_of_lt h.lt)
  have hc : c < 128 := h.ascii c (mem_of_mem_drop (hnext ▸ mem_cons_self))
  cases path with
  | nil =>
    simp [matchRecursive, splitChild, hnext]
  | cons fb rest =>
    have hstatic := staticChild_splitChild hnext fb
    have hslot (kind : Bool) := @slotChild_splitChild child count kind
    have hparam := hslot false
    have hcatchAll := hslot true
    simp only [Node.slotChild, Node.slotIndex, Bool.false_eq_true, if_false, if_true]
      at hparam hcatchAll
    have hcollision : (splitChild child count).hasDispatchCollision = false := rfl
    have hsame (outcome : Bool × MatchParams) :
        (if outcome.1 = true then outcome else (false, outcome.2)) = outcome := by
      obtain ⟨ok, result⟩ := outcome
      cases ok <;> rfl
    by_cases hcf : c = fb
    · subst hcf
      rw [if_pos ⟨rfl, hc⟩, Node.staticChild] at hstatic
      have hfits : (child.paramName.isEmpty = true ∧ (!(child.pfx.drop count).isEmpty) = true ∧
          (child.pfx.drop count).isPrefixOf (c :: rest) = true) ↔
            child.pfx.drop count <+: c :: rest := by
        simp [h.name, hnext]
      simp only [matchRecursive, hstatic, hcollision, hparam, hcatchAll, ite_self, hfits,
        matchRecursive_withPfx, Bool.false_eq_true, if_false]
      exact hsame _
    · have hapart : ¬ child.pfx.drop count <+: fb :: rest := by
        rw [hnext]
        exact fun h => hcf (cons_prefix_cons.mp h).1
      rw [if_neg fun h => hcf h.1, Node.staticChild] at hstatic
      rw [if_neg hapart]
      simp [matchRecursive, hstatic, hcollision, hparam, hcatchAll]

theorem followStatic_splitChild {child : Node} {count : ℕ} (h : Splittable child count)
    (path : Bytes) (result : MatchParams) :
    followStatic (path.length + 1) (splitChild child count) path result =
      followStatic (path.length + 1) child path result := by
  have hlt := h.lt
  have hpos := h.pos
  have hlength : (child.pfx.take count).length = count := length_take_of_le hlt.le
  have hpfx : child.pfx ≠ [] := ne_nil_of_length_pos (by omega)
  have htake : child.pfx.take count ≠ [] := ne_nil_of_length_pos (by omega)
  rw [followStatic_eq h.name hpfx, followStatic_eq rfl htake]
  show (if child.pfx.take _ <+: path then
      matchRecursive _ _
        (path.drop (child.pfx.take _).length) _
    else (false, result)) = _
  by_cases hcommon : child.pfx.take count <+: path
  · obtain ⟨rest, rfl⟩ := hcommon
    have hwhole : child.pfx <+: child.pfx.take count ++ rest ↔ child.pfx.drop count <+: rest := by
      conv_lhs => rw [← take_append_drop count child.pfx]
      rw [take_left' hlength, prefix_append_right_inj]
    rw [if_pos (prefix_append _ _), drop_left, matchRecursive_splitChild h]
    by_cases hinside : child.pfx.drop count <+: rest
    · obtain ⟨tail, rfl⟩ := hinside
      have hdrop : (child.pfx.take count ++ (child.pfx.drop count ++ tail)).drop child.pfx.length =
          tail := by
        rw [← append_assoc, take_append_drop, drop_left]
      rw [if_pos (prefix_append _ _), if_pos (hwhole.mpr (prefix_append _ _)), hdrop, drop_left]
      apply matchRecursive_fuel
      · simp only [length_append]
        omega
      · simp only [length_append]
        omega
    · rw [if_neg hinside, if_neg fun h => hinside (hwhole.mp h)]
  · rw [if_neg hcommon, if_neg fun h => hcommon ((List.take_prefix _ _).trans h)]

theorem accepted_splitChild {child : Node} {count : ℕ} (h : Splittable child count) :
    accepted (splitChild child count) = accepted child := by
  simp [accepted, followStatic_splitChild h]

/-! ## Runs -/

inductive Segment where
  | literal (text : Bytes)
  | param (name : Bytes)
  | catchAll (name : Bytes)

def Segment.bytes : Segment → Bytes
  | .literal text => slash :: text
  | .param name => slash :: openBrace :: (name ++ [closeBrace])
  | .catchAll name => slash :: openBrace :: (name ++ ascii ":path" ++ [closeBrace])

def Segment.Proper : Segment → Prop
  | .literal text => text ≠ [] ∧ slash ∉ text ∧ text.head? ≠ some openBrace
  | .param name => name ≠ [] ∧ closeBrace ∉ name ∧ colon ∉ name
  | .catchAll name => name ≠ [] ∧ closeBrace ∉ name ∧ colon ∉ name

instance (segment : Segment) : Decidable segment.Proper :=
  match segment with
  | .literal text =>
    inferInstanceAs (Decidable (text ≠ [] ∧ slash ∉ text ∧ text.head? ≠ some openBrace))
  | .param name => inferInstanceAs (Decidable (name ≠ [] ∧ closeBrace ∉ name ∧ colon ∉ name))
  | .catchAll name => inferInstanceAs (Decidable (name ≠ [] ∧ closeBrace ∉ name ∧ colon ∉ name))

def Segmented (pattern : Bytes) : Prop :=
  ∃ segments : List Segment, (∀ segment ∈ segments, segment.Proper) ∧
    pattern = segments.flatMap Segment.bytes ∧ ∀ b ∈ pattern, b < 128

def Router.splits (router : Router) (pattern : Bytes) : List (Node × ℕ) :=
  if openBrace ∈ pattern then Routing.splits (pattern.length + 1) router.root pattern else []

/-- The splits of a sequence of `insert` calls. -/
def Router.splitsAll : Router → List (Bytes × ℕ) → List (Node × ℕ)
  | _, [] => []
  | router, (pattern, index) :: inserts =>
    router.splits pattern ++ (router.insert pattern index).1.splitsAll inserts

theorem tokens_param {name : Bytes} {kind : Bool} {content rest : Bytes}
    (hcontent : closeBrace ∉ content) (hname : paramContent content = (name, kind)) :
    patternTokens (slash :: openBrace :: (content ++ closeBrace :: rest)) =
      (patternTokens rest).map (slotToken name kind :: ·) := by
  have hsplit := splitAtByte_append hcontent rest
  rw [@patternTokens_param slash (openBrace :: (content ++ closeBrace :: rest)) _ _ rfl hsplit, hname]

theorem tokens_of_segments {segments : List Segment}
    (hproper : ∀ segment ∈ segments, segment.Proper)
    (hascii : ∀ b ∈ segments.flatMap Segment.bytes, b < 128) :
    ∃ tokens, patternTokens (segments.flatMap Segment.bytes) = some tokens ∧
      ∀ token ∈ tokens, token.Sound := by
  induction segments with
  | nil => exact ⟨[], rfl, fun token htoken => absurd htoken not_mem_nil⟩
  | cons segment segments ih =>
    rw [forall_mem_cons] at hproper
    rw [flatMap_cons] at hascii ⊢
    obtain ⟨tail, htail, hsound⟩ :=
      ih hproper.2 fun b hb => hascii b (mem_append_right _ hb)
    have hslot {content name : Bytes} {kind : Bool} (hname : name ≠ [])
        (hcontent : closeBrace ∉ content) (hparts : paramContent content = (name, kind))
        (hbytes : segment.bytes = slash :: openBrace :: (content ++ [closeBrace])) :
        ∃ tokens, patternTokens (segment.bytes ++ segments.flatMap Segment.bytes) = some tokens ∧
          ∀ token ∈ tokens, token.Sound := by
      have htokens := @tokens_param name kind content (segments.flatMap Segment.bytes) hcontent
        hparts
      rw [htail, Option.map_some] at htokens
      refine ⟨_, ?_, forall_mem_cons.mpr ⟨(sound_slotToken _ kind).mpr hname, hsound⟩⟩
      rw [← htokens, hbytes]
      simp
    cases segment with
    | literal text =>
      obtain ⟨hne, hslash, hbrace⟩ := hproper.1
      have hparam : ¬ startsParam (slash :: (text ++ segments.flatMap Segment.bytes)) = true := by
        cases text with
        | nil => exact absurd rfl hne
        | cons c text =>
          have hc : c ≠ openBrace := fun h => hbrace (h ▸ rfl)
          simp [startsParam, hc]
      refine ⟨.byte slash :: (literal text ++ tail), ?_, ?_⟩
      · rw [Segment.bytes, cons_append, patternTokens_byte hparam,
          patternTokens_literal hslash, htail]
        rfl
      · rw [forall_mem_cons, forall_mem_append]
        refine ⟨show slash < 128 by decide, fun token htoken => ?_, hsound⟩
        obtain ⟨b, hb, rfl⟩ := mem_map.mp htoken
        exact hascii b (mem_append_left _ (mem_cons_of_mem _ hb))
    | param name =>
      obtain ⟨hname, hclose, hcolon⟩ := hproper.1
      have hparts : paramContent name = (name, false) := by
        rw [paramContent, splitAtByte_none hcolon]
      exact hslot hname hclose hparts rfl
    | catchAll name =>
      obtain ⟨hname, hclose, hcolon⟩ := hproper.1
      have hparts : paramContent (name ++ ascii ":path") = (name, true) := by
        have hsplit := splitAtByte_append hcolon (ascii "path")
        have hcontent : name ++ ascii ":path" = name ++ colon :: ascii "path" := rfl
        rw [paramContent, hcontent, hsplit]
        rfl
      refine hslot hname ?_ hparts rfl
      rw [mem_append, not_or]
      exact ⟨hclose, by decide⟩

theorem Segmented.tokens {pattern : Bytes} (h : Segmented pattern) :
    ∃ tokens, patternTokens pattern = some tokens ∧ ∀ token ∈ tokens, token.Sound := by
  obtain ⟨segments, hproper, rfl, hascii⟩ := h
  exact tokens_of_segments hproper hascii

theorem narrow_of_insertAll {router router' : Router} {inserts : List (Bytes × ℕ)}
    (hrun : router.insertAll inserts = some router') (h : router'.root.All Node.Narrow) :
    router.root.All Node.Narrow := by
  induction inserts generalizing router with
  | nil =>
    obtain rfl : router = router' := Option.some.inj hrun
    exact h
  | cons entry inserts ih =>
    simp only [Router.insertAll] at hrun
    split at hrun
    · have hnext := ih hrun
      rw [Router.insert] at hnext
      split at hnext
      · exact narrow_of_insertRecursive _ hnext
      · exact hnext
    · cases hrun

theorem insertAll_keeps {router router' : Router} {inserts : List (Bytes × ℕ)}
    (hrouter : router.root.All Node.Shaped) (hpatterns : ∀ entry ∈ inserts, Segmented entry.1)
    (hrun : router.insertAll inserts = some router') (hnarrow : router'.root.All Node.Narrow) :
    router'.root.All Node.Shaped ∧
      ∀ split ∈ router.splitsAll inserts, Splittable split.1 split.2 := by
  induction inserts generalizing router with
  | nil =>
    obtain rfl : router = router' := Option.some.inj hrun
    exact ⟨hrouter, fun split hsplit => absurd hsplit not_mem_nil⟩
  | cons entry inserts ih =>
    rw [forall_mem_cons] at hpatterns
    obtain ⟨tokens, htokens, hsound⟩ := hpatterns.1.tokens
    simp only [Router.insertAll] at hrun
    split at hrun
    · have hnext := narrow_of_insertAll hrun hnarrow
      have hshaped : (router.insert entry.1 entry.2).1.root.All Node.Shaped := by
        rw [Router.insert] at hnext ⊢
        split
        · next hparam =>
          rw [if_pos hparam] at hnext
          exact insertRecursive_shaped _ hrouter htokens hsound hnext
        · exact hrouter
      obtain ⟨hroot, hlater⟩ := ih hshaped hpatterns.2 hrun
      refine ⟨hroot, fun split hsplit => ?_⟩
      rcases mem_append.mp hsplit with hhere | hrest
      · rw [Router.splits] at hhere
        split at hhere
        · exact splits_splittable _ hrouter htokens hsound _ hhere
        · exact absurd hhere not_mem_nil
      · exact hlater _ hrest
    · cases hrun

/-- After any successful insertions all nodes of the trie have their shape, and no split on
the way has changed what the search accepts below it. -/
theorem insertAll_trie_shaped {inserts : List (Bytes × ℕ)} {router : Router}
    (hpatterns : ∀ entry ∈ inserts, Segmented entry.1)
    (hrun : Router.insertAll {} inserts = some router) (hnarrow : router.root.All Node.Narrow) :
    router.root.All Node.Shaped ∧ ∀ split ∈ Router.splitsAll {} inserts,
        accepted (splitChild split.1 split.2) = accepted split.1 := by
  have hempty : Node.All Node.Shaped {} := Node.all_fresh (Node.shaped_fresh [] [] _)
  obtain ⟨hshaped, hsplits⟩ := insertAll_keeps hempty hpatterns hrun hnarrow
  exact ⟨hshaped, fun split hsplit => accepted_splitChild (hsplits _ hsplit)⟩

/-- The nodes down to a depth are narrow, and there are none below it. -/
def Node.narrowTo : ℕ → Node → Bool
  | 0, _ => false
  | depth + 1, node =>
    decide (node.children.length < 32768) && node.children.all (Node.narrowTo depth)

theorem Node.all_of_narrowTo {depth : ℕ} {node : Node} (h : node.narrowTo depth = true) :
    node.All Node.Narrow := by
  induction depth generalizing node with
  | zero => cases h
  | succ depth ih =>
    rw [narrowTo, Bool.and_eq_true, decide_eq_true_eq, all_eq_true] at h
    exact .intro h.1 fun child hchild => ih (h.2 child hchild)

/-- Two routes whose static segments part behind a common beginning. -/
def forkedInserts : List (Bytes × ℕ) :=
  [(ascii "/users/{id}", 0), (ascii "/uploads/{rest:path}", 1)]

theorem insertAll_trie_shaped_forked : ∃ router,
    Router.insertAll {} forkedInserts = some router ∧ (Router.splitsAll {} forkedInserts).length = 1 ∧
      router.root.All Node.Shaped ∧
      ∀ split ∈ Router.splitsAll {} forkedInserts,
        accepted (splitChild split.1 split.2) = accepted split.1 := by
  have hpatterns : ∀ entry ∈ forkedInserts, Segmented entry.1 := by
    rw [forkedInserts, forall_mem_cons, forall_mem_singleton]
    exact ⟨⟨[.literal (ascii "users"), .param (ascii "id")], by decide, by decide, by decide⟩,
      ⟨[.literal (ascii "uploads"), .catchAll (ascii "rest")], by decide, by decide, by decide⟩⟩
  have hdepth : (Router.insertAll {} forkedInserts).map (fun router => router.root.narrowTo 5) =
      some true := by
    decide +kernel
  obtain ⟨router, hrun, hnarrow⟩ := Option.map_eq_some_iff.mp hdepth
  exact ⟨router, hrun, by decide +kernel,
    insertAll_trie_shaped hpatterns hrun (Node.all_of_narrowTo hnarrow)⟩

end AstraApi.Routing
