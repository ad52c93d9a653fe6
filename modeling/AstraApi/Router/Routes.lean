import AstraApi.Router.Search

/-!
# A router after a sequence of insertions

The trie of a router represents the table of its parametric patterns and the
hash map holds the last index of every parameter-free one, after any sequence
of successful `insert` calls.  From this follow the two questions a caller has
about `Router::at`: whether it finds a route that was inserted, and whether the
match it reports is the match of an inserted pattern.
-/

namespace AstraApi.Routing

open List Option
open SlotTable

variable {path : Bytes} {entry : Bytes × ℕ} {tokens : List Token} {inserts : List (Bytes × ℕ)}

def patternBindings (pattern path : Bytes) : Option (List (Bytes × Bytes)) :=
  (patternTokens pattern).bind fun tokens => bindings tokens path

def PatternMatches (pattern path : Bytes) : Prop :=
  (patternBindings pattern path).isSome

def words (inserts : List (Bytes × ℕ)) : List (List Token × ℕ) :=
  inserts.filterMap fun entry => (patternTokens entry.1).map (·, entry.2)

def trieInserts (inserts : List (Bytes × ℕ)) : List (Bytes × ℕ) :=
  inserts.filter fun entry => decide (openBrace ∈ entry.1)

def trieTable (inserts : List (Bytes × ℕ)) : RouteTable :=
  tableOf rival (words (trieInserts inserts))

def LastInsert (inserts : List (Bytes × ℕ)) (pattern : Bytes) (number : ℕ) : Prop :=
  ∃ before later, inserts = before ++ (pattern, number) :: later ∧
    ∀ next ∈ later, next.1 ≠ pattern

/-- No later insertion took the place of this one.  In the trie a place is lost
to the same tokens or to another name for one of its parameter slots, and a
byte from 128 on cannot be reached from a node; in the hash map it is lost to
the same text only. -/
def Reachable (inserts : List (Bytes × ℕ)) (entry : Bytes × ℕ) (tokens : List Token) : Prop :=
  entry ∈ inserts ∧ patternTokens entry.1 = some tokens ∧
    if openBrace ∈ entry.1 then
      Survives rival (words (trieInserts inserts)) tokens entry.2 ∧
        ¬ Shadowed (trieTable inserts) tokens
    else LastInsert inserts entry.1 entry.2

/-! ## Successful insertions have tokens -/

/-- `insert` returns false on a pattern with an unclosed parameter. -/
theorem patternTokens_of_insert {fuel : ℕ} {node : Node} {index : ℤ}
    (hok : (insertRecursive fuel node path index).2 = true) :
    (patternTokens path).isSome := by
  induction fuel generalizing node path with
  | zero => simp [insertRecursive] at hok
  | succ fuel ih =>
    cases path with
    | nil => rfl
    | cons fb rest =>
      rcases insertRecursive_step node fb rest with
        ⟨own, word, below, rest', back, hstep, heq⟩ | ⟨-, heq⟩
      · rw [(heq _).2] at hok
        rw [hstep.reads, isSome_map]
        exact ih hok
      · rw [(heq _).2] at hok
        cases hok

theorem patternTokens_static_pattern {pattern : Bytes} (hstatic : openBrace ∉ pattern) :
    patternTokens pattern = some (literal pattern) := by
  induction pattern with
  | nil => rfl
  | cons b rest ih =>
    have hparam : ¬ startsParam (b :: rest) = true := by
      cases rest with
      | nil => simp [startsParam]
      | cons c rest =>
        have hc : c ≠ openBrace := by
          rintro rfl
          simp at hstatic
        simp [startsParam, hc]
    rw [patternTokens_byte hparam, ih (fun hmem => hstatic (mem_cons_of_mem b hmem))]
    rfl

/-! ## The state of the router after a run -/

/-- What a router holds after the insertions `inserts`. -/
structure Serves (inserts : List (Bytes × ℕ)) (router : Router) : Prop where
  tokens : ∀ entry ∈ inserts, (patternTokens entry.1).isSome
  trie : Represents inserts.length router.root (trieTable inserts)
  static : ∀ path index, router.staticRoutes path = some index ↔
    openBrace ∉ path ∧ ∃ number : ℕ, index = number ∧ LastInsert inserts path number

theorem serves_empty : Serves [] {} where
  tokens := by simp
  trie := represents_fresh 0 [] [] _
  static := by simp [LastInsert]

theorem trieInserts_append (inserts : List (Bytes × ℕ)) (entry : Bytes × ℕ) :
    trieInserts (inserts ++ [entry]) =
      if openBrace ∈ entry.1 then trieInserts inserts ++ [entry] else trieInserts inserts := by
  unfold trieInserts
  by_cases hparam : openBrace ∈ entry.1 <;> simp [hparam]

theorem trieTable_append_trie (inserts : List (Bytes × ℕ)) (hparam : openBrace ∈ entry.1)
    (htokens : patternTokens entry.1 = some tokens) :
    trieTable (inserts ++ [entry]) = putRoute (trieTable inserts) tokens entry.2 := by
  have hwords : words (trieInserts inserts ++ [entry]) =
      words (trieInserts inserts) ++ [(tokens, entry.2)] := by
    simp [words, htokens]
  rw [trieTable, trieInserts_append, if_pos hparam, hwords, tableOf_append_singleton]
  rfl

theorem trieTable_append_static (inserts : List (Bytes × ℕ))
    (hstatic : openBrace ∉ entry.1) : trieTable (inserts ++ [entry]) = trieTable inserts := by
  rw [trieTable, trieInserts_append, if_neg hstatic]
  rfl

theorem lastInsert_append_iff {pattern : Bytes} {number : ℕ} :
    LastInsert (inserts ++ [entry]) pattern number ↔
      if entry.1 = pattern then number = entry.2 else LastInsert inserts pattern number := by
  constructor
  · rintro ⟨before, later, heq, hlater⟩
    rcases eq_nil_or_concat later with rfl | ⟨later, last, rfl⟩
    · obtain rfl : entry = (pattern, number) := by
        simpa using (append_inj' heq rfl).2
      simp
    · rw [concat_eq_append, ← cons_append, ← append_assoc] at heq
      obtain ⟨rfl, hlast⟩ := append_inj' heq rfl
      obtain rfl : entry = last := by simpa using hlast
      have hne : entry.1 ≠ pattern := hlater _ (by simp)
      rw [if_neg hne]
      exact ⟨before, later, rfl, fun next hnext => hlater _ (by simp [hnext])⟩
  · split
    · rename_i hpattern
      subst hpattern
      rintro rfl
      exact ⟨inserts, [], rfl, by simp⟩
    · rename_i hpattern
      rintro ⟨before, later, rfl, hlater⟩
      refine ⟨before, later ++ [entry], by simp, ?_⟩
      intro next hnext
      rcases mem_append.mp hnext with hmem | hmem
      · exact hlater _ hmem
      · obtain rfl : next = entry := by simpa using hmem
        exact hpattern

/-- One insertion. -/
theorem Serves.insert {inserts : List (Bytes × ℕ)} {router : Router}
    (hserves : Serves inserts router) (hcount : inserts.length < 32768) {entry : Bytes × ℕ}
    (hok : (router.insert entry.1 entry.2).2 = true) :
    Serves (inserts ++ [entry]) (router.insert entry.1 entry.2).1 := by
  have hlength : (inserts ++ [entry]).length = inserts.length + 1 := by simp
  have hmem : ∀ next ∈ inserts ++ [entry], (patternTokens entry.1).isSome →
      (patternTokens next.1).isSome := by
    intro next hnext hentry
    rcases mem_append.mp hnext with hold | hnew
    · exact hserves.tokens _ hold
    · obtain rfl : next = entry := by simpa using hnew
      exact hentry
  by_cases hparam : openBrace ∈ entry.1
  · simp only [Router.insert, if_pos hparam] at hok ⊢
    have htokens := patternTokens_of_insert hok
    obtain ⟨tokens, heq⟩ := isSome_iff_exists.mp htokens
    refine ⟨fun next hnext => hmem _ hnext htokens, ?_, ?_⟩
    · rw [hlength, trieTable_append_trie _ hparam heq]
      exact (insert_represents hserves.trie hcount (Nat.lt_succ_self _) heq).2
    · intro path index
      rw [hserves.static]
      by_cases hpath : entry.1 = path
      · subst hpath
        simp [hparam]
      · simp [lastInsert_append_iff, hpath]
  · simp only [Router.insert, if_neg hparam]
    refine ⟨fun next hnext => hmem _ hnext ?_, ?_, ?_⟩
    · rw [patternTokens_static_pattern hparam]
      rfl
    · rw [hlength, trieTable_append_static _ hparam]
      exact hserves.trie.mono (Nat.le_succ _)
    · intro path index
      by_cases hpath : entry.1 = path
      · subst hpath
        simp [hparam, lastInsert_append_iff, eq_comm]
      · show Function.update router.staticRoutes _ _ _ = some _ ↔ _
        rw [Function.update_of_ne (Ne.symm hpath), hserves.static]
        simp [lastInsert_append_iff, hpath]

/-- Every run of successful insertions. -/
theorem Serves.insertAll {done : List (Bytes × ℕ)} {router router' : Router}
    (hserves : Serves done router) (inserts : List (Bytes × ℕ))
    (hcount : (done ++ inserts).length ≤ 32768)
    (hrun : router.insertAll inserts = some router') : Serves (done ++ inserts) router' := by
  induction inserts generalizing done router with
  | nil =>
    obtain rfl : router = router' := by simpa [Router.insertAll] using hrun
    simpa using hserves
  | cons entry inserts ih =>
    simp only [Router.insertAll] at hrun
    split at hrun
    · rename_i hok
      have hroom : done.length < 32768 := by
        simp only [length_append, length_cons] at hcount
        omega
      have hnext := hserves.insert hroom hok
      have hrest := ih hnext (by simpa using hcount) hrun
      simpa using hrest
    · simp at hrun

/-! ## What `at` returns -/

/-- The reachable pattern that the search prefers among those that match. -/
def Selected (inserts : List (Bytes × ℕ)) (path : Bytes) (entry : Bytes × ℕ)
    (tokens : List Token) : Prop :=
  Reachable inserts entry tokens ∧ Matches tokens path ∧
    ∀ other tokens', Reachable inserts other tokens' → Matches tokens' path →
      tokens' = tokens ∨ beats tokens tokens' = true

theorem mem_trieInserts :
    entry ∈ trieInserts inserts ↔ entry ∈ inserts ∧ openBrace ∈ entry.1 := by
  simp [trieInserts]

theorem mem_of_survives {rival : Token → Token → Bool} {puts : List (List Token × ℕ)}
    {word : List Token} {index : ℕ} (hsurvives : Survives rival puts word index) :
    (word, index) ∈ puts := by
  obtain ⟨before, later, rfl, _⟩ := hsurvives
  simp

/-- The stored words come from inserted patterns. -/
theorem exists_entry_of_trieTable {word : List Token} {index : ℕ}
    (hstored : trieTable inserts word = some index) :
    ∃ pattern, (pattern, index) ∈ inserts ∧ openBrace ∈ pattern ∧
      patternTokens pattern = some word := by
  have hmem := mem_of_survives ((tableOf_eq_some_iff _ _ _ _).1 hstored)
  obtain ⟨⟨pattern, number⟩, hentry, heq⟩ := mem_filterMap.mp hmem
  obtain ⟨tokens, htokens, hpair⟩ := map_eq_some_iff.mp heq
  obtain ⟨rfl, rfl⟩ : tokens = word ∧ number = index := by simpa using hpair
  obtain ⟨hinsert, hparam⟩ := mem_trieInserts.mp hentry
  exact ⟨pattern, hinsert, hparam, htokens⟩

/-- In the trie, reachable patterns are live words. -/
theorem reachable_trie_iff (hparam : openBrace ∈ entry.1) :
    Reachable inserts entry tokens ↔ entry ∈ inserts ∧ patternTokens entry.1 = some tokens ∧
        trieTable inserts tokens = some entry.2 ∧ Live (trieTable inserts) tokens := by
  rw [Reachable, if_pos hparam, ← tableOf_eq_some_iff]
  constructor
  · rintro ⟨hmem, htokens, hstored, hshadow⟩
    exact ⟨hmem, htokens, hstored, isSome_of_eq_some hstored, hshadow⟩
  · rintro ⟨hmem, htokens, hstored, _, hshadow⟩
    exact ⟨hmem, htokens, hstored, hshadow⟩

theorem bindings_literal_self (text : Bytes) : bindings (literal text) text = some [] := by
  have happend := bindings_bytes_append text [] []
  rw [append_nil, append_nil] at happend
  exact happend

theorem eq_of_matches_literal {text : Bytes} (hmatch : Matches (literal text) path) :
    text = path := by
  induction text generalizing path with
  | nil =>
    cases path with
    | nil => rfl
    | cons c path => simp [Matches] at hmatch
  | cons b text ih =>
    cases path with
    | nil => simp [Matches] at hmatch
    | cons c path =>
      obtain rfl := head_of_matches_byte hmatch
      congr 1
      apply ih
      simpa [Matches, bindings] using hmatch

/-- Literal text is preferred to any other pattern for the same path. -/
theorem beats_of_literal (hmatch : Matches tokens path) :
    tokens = literal path ∨ beats (literal path) tokens = true := by
  induction path generalizing tokens with
  | nil =>
    cases tokens with
    | nil => exact .inl rfl
    | cons token tokens => simp [Matches] at hmatch
  | cons c path ih =>
    cases tokens with
    | nil => simp [Matches] at hmatch
    | cons token tokens =>
      cases token with
      | byte b =>
        obtain rfl := head_of_matches_byte hmatch
        have hmatch' : Matches tokens path := by
          simpa [Matches, bindings] using hmatch
        rcases ih hmatch' with rfl | hbeats
        · exact .inl rfl
        · exact .inr (by simpa [beats] using hbeats)
      | param name | catchAll name => exact .inr (beats_of_rank _ _ (by simp [rank]))

theorem beats_asymm {left right : List Token} (hbeats : beats left right = true) :
    beats right left = false := by
  induction left generalizing right with
  | nil => simp [beats] at hbeats
  | cons a left ih =>
    cases right with
    | nil => simp [beats] at hbeats
    | cons b right =>
      by_cases hab : a = b
      · subst hab
        simp only [beats, if_true] at hbeats ⊢
        exact ih hbeats
      · simp only [beats, if_neg hab, decide_eq_true_eq] at hbeats
        simp only [beats, if_neg (Ne.symm hab), decide_eq_false_iff_not]
        omega

def CatchAllsFinal (inserts : List (Bytes × ℕ)) : Prop :=
  ∀ entry ∈ inserts, (patternTokens entry.1).all catchAllLast = true

/-- `at` answers with the selected pattern, or with nothing when no reachable
pattern matches. -/
theorem at_spec {router : Router}
    (hserves : Serves inserts router) (hfinal : CatchAllsFinal inserts) (path : Bytes) :
    (∃ entry tokens bound, Selected inserts path entry tokens ∧ bindings tokens path = some bound ∧
        router.at path = some ⟨entry.2, bound.take MatchParams.maxInline⟩) ∨
      (router.at path = none ∧
        ∀ entry tokens, Reachable inserts entry tokens → ¬ Matches tokens path) := by
  cases hstatic : router.staticRoutes path with
  | some index =>
    obtain ⟨hbrace, number, rfl, hlastInsert⟩ := (hserves.static _ _).1 hstatic
    left
    refine ⟨(path, number), literal _, [], ⟨⟨?_, ?_, ?_⟩, ?_, ?_⟩, bindings_literal_self _, ?_⟩
    · obtain ⟨before, later, rfl, _⟩ := hlastInsert
      simp
    · exact patternTokens_static_pattern hbrace
    · rw [if_neg hbrace]
      exact hlastInsert
    · rw [Matches, bindings_literal_self]
      rfl
    · intro other tokens _ hmatch
      exact beats_of_literal hmatch
    · simp [Router.at, hstatic]
  | none =>
    have hnoStatic : ∀ entry tokens, Reachable inserts entry tokens → Matches tokens path →
        openBrace ∈ entry.1 := by
      intro entry tokens hreach hmatch
      by_contra hbrace
      obtain ⟨_, htokens, hlastInsert⟩ := hreach
      rw [if_neg hbrace] at hlastInsert
      rw [patternTokens_static_pattern hbrace] at htokens
      obtain rfl : literal entry.1 = tokens := by simpa using htokens
      obtain rfl := eq_of_matches_literal hmatch
      have hfound := (hserves.static _ _).2 ⟨hbrace, entry.2, rfl, hlastInsert⟩
      rw [hstatic] at hfound
      simp at hfound
    have hlast : ∀ word, (trieTable inserts word).isSome → catchAllLast word = true := by
      intro word hstored
      obtain ⟨index, hindex⟩ := isSome_iff_exists.mp hstored
      obtain ⟨pattern, hmem, _, htokens⟩ := exists_entry_of_trieTable hindex
      simpa [htokens] using hfinal _ hmem
    have hempty : ({} : MatchParams).params.length ≤ MatchParams.maxInline := by simp
    have hsettles := match_settles hserves.trie (Nat.lt_succ_self path.length) hlast hempty
    rcases hsettles with ⟨hok, word, index, bound, hlive, hstored, hbound, hout, hfirst⟩ |
      ⟨hok, _, hnone⟩
    · left
      obtain ⟨pattern, hmem, hparam, htokens⟩ := exists_entry_of_trieTable hstored
      refine ⟨(pattern, index), word, bound, ⟨?_, ?_, ?_⟩, hbound, ?_⟩
      · exact (reachable_trie_iff hparam).2 ⟨hmem, htokens, hstored, hlive⟩
      · rw [Matches, hbound]
        rfl
      · intro other tokens hreach hmatch
        have hother := (reachable_trie_iff (hnoStatic _ _ hreach hmatch)).1 hreach
        exact hfirst _ hother.2.2.2 hmatch
      · simp only [Router.at, hstatic, hok, if_true, hout]
        rfl
    · right
      refine ⟨by simp [Router.at, hstatic, hok], ?_⟩
      intro entry tokens hreach hmatch
      have hother := (reachable_trie_iff (hnoStatic _ _ hreach hmatch)).1 hreach
      exact hnone _ hother.2.2.2 hmatch

/-! ## Completeness and soundness of `at` -/

def Complete (inserts : List (Bytes × ℕ)) (router : Router) (path : Bytes) : Prop :=
  (∃ entry ∈ inserts, PatternMatches entry.1 path) → (router.at path).isSome

/-- A match reports an inserted pattern and exactly its bindings. -/
def Sound (inserts : List (Bytes × ℕ)) (path : Bytes) (result : MatchParams) : Prop :=
  ∃ entry ∈ inserts, result.routeIndex = entry.2 ∧
    patternBindings entry.1 path = some result.params

/-- The number of parameters of a pattern. -/
def paramCount (tokens : List Token) : ℕ := tokens.countP isSlot

theorem length_of_bindings
    {bound : List (Bytes × Bytes)} (hbound : bindings tokens path = some bound) :
    bound.length = paramCount tokens := by
  induction tokens generalizing path bound with
  | nil =>
    cases path with
    | nil =>
      obtain rfl : [] = bound := by simpa using hbound
      rfl
    | cons c path => simp at hbound
  | cons token tokens ih =>
    cases path with
    | nil => simp at hbound
    | cons c path =>
      cases token with
      | byte b =>
        simp only [bindings] at hbound
        split at hbound
        · simpa [paramCount, isSlot] using ih hbound
        · simp at hbound
      | param name =>
        simp only [bindings] at hbound
        split at hbound
        · obtain ⟨rest, hrest, rfl⟩ := map_eq_some_iff.mp hbound
          rw [length_cons, ih hrest]
          simp [paramCount, countP_cons, isSlot]
        · simp at hbound
      | catchAll name =>
        simp only [bindings] at hbound
        split at hbound
        · rename_i hcond
          obtain rfl : [(name, path)] = bound := by simpa using hbound
          simp [paramCount, isSlot, hcond.2]
        · simp at hbound

/-- A path with a matching pattern is routed exactly when one of the patterns
that match it is still reachable. -/
theorem at_complete_iff (inserts : List (Bytes × ℕ)) (router : Router) (path : Bytes)
    (hrun : Router.insertAll {} inserts = some router) (hcount : inserts.length ≤ 32768)
    (hfinal : CatchAllsFinal inserts) :
    Complete inserts router path ↔ ((∃ entry ∈ inserts, PatternMatches entry.1 path) →
        ∃ entry tokens, Reachable inserts entry tokens ∧ Matches tokens path) := by
  have hserves : Serves inserts router := by
    simpa using serves_empty.insertAll _ (by simpa using hcount) hrun
  have hspec := at_spec hserves hfinal path
  constructor
  · intro hcomplete hmatch
    have hsome := hcomplete hmatch
    rcases hspec with ⟨entry, tokens, bound, hselected, _⟩ | ⟨hnone, _⟩
    · exact ⟨entry, tokens, hselected.1, hselected.2.1⟩
    · simp [hnone] at hsome
  · intro hreachable hmatch
    obtain ⟨entry, tokens, hreach, hmatches⟩ := hreachable hmatch
    rcases hspec with ⟨_, _, _, _, _, hat⟩ | ⟨_, hnone⟩
    · simp [hat]
    · exact absurd hmatches (hnone _ _ hreach)

/-- Two routes that name the same path segment differently. -/
def renamedInserts : List (Bytes × ℕ) :=
  [(ascii "/users/\x7bid\x7d/posts", 0), (ascii "/users/\x7bname\x7d/profile", 1)]

theorem at_complete_iff_renamed : ∃ router, Router.insertAll {} renamedInserts = some router ∧
    (Complete renamedInserts router (ascii "/users/7/posts") ↔
      ((∃ entry ∈ renamedInserts, PatternMatches entry.1 (ascii "/users/7/posts")) →
        ∃ entry tokens, Reachable renamedInserts entry tokens ∧
          Matches tokens (ascii "/users/7/posts"))) := by
  obtain ⟨router, hrun⟩ := isSome_iff_exists.mp
    (by decide +kernel : (Router.insertAll {} renamedInserts).isSome)
  exact ⟨router, hrun, at_complete_iff _ _ _ hrun (by decide)
    (by unfold CatchAllsFinal; decide +kernel)⟩

/-- The second route takes the parameter slot, and the first one is lost. -/
theorem at_not_complete : ¬ ∀ inserts router path, Router.insertAll {} inserts = some router →
    CatchAllsFinal inserts → Complete inserts router path := by
  intro hall
  obtain ⟨router, hrun⟩ := isSome_iff_exists.mp
    (by decide +kernel : (Router.insertAll {} renamedInserts).isSome)
  have hlost : (Router.insertAll {} renamedInserts).map
      (fun router => (router.at (ascii "/users/7/posts")).isSome) = some false := by
    decide +kernel
  rw [hrun] at hlost
  have hfound := hall _ _ (ascii "/users/7/posts") hrun
    (by unfold CatchAllsFinal; decide +kernel)
    (by unfold PatternMatches; decide +kernel)
  simp [hfound] at hlost

/-- The reported bindings are those of an inserted pattern exactly when the
selected pattern has no more parameters than the inline array holds. -/
theorem at_sound_iff (inserts : List (Bytes × ℕ)) (router : Router) (path : Bytes)
    (hrun : Router.insertAll {} inserts = some router) (hcount : inserts.length ≤ 32768)
    (hfinal : CatchAllsFinal inserts) (hdistinct : (inserts.map Prod.snd).Nodup) :
    (∀ result, router.at path = some result → Sound inserts path result) ↔
      ∀ entry tokens, Selected inserts path entry tokens →
        paramCount tokens ≤ MatchParams.maxInline := by
  have hserves : Serves inserts router := by
    simpa using serves_empty.insertAll _ (by simpa using hcount) hrun
  have hspec := at_spec hserves hfinal path
  constructor
  · intro hsound entry tokens hselected
    rcases hspec with ⟨entry', tokens', bound, hselected', hbound, hat⟩ | ⟨_, hnone⟩
    · have hsame : tokens = tokens' := by
        rcases hselected'.2.2 entry tokens hselected.1 hselected.2.1 with heq | hbeats
        · exact heq
        · rcases hselected.2.2 entry' tokens' hselected'.1 hselected'.2.1 with heq | hbeats'
          · exact heq.symm
          · rw [beats_asymm hbeats] at hbeats'
            simp at hbeats'
      subst hsame
      obtain ⟨found, hfound, hindex, hparams⟩ := hsound _ hat
      have hentry : found = entry' :=
        inj_on_of_nodup_map hdistinct hfound hselected'.1.1 (by simpa using hindex.symm)
      subst hentry
      rw [patternBindings, hselected'.1.2.1, bind_some, hbound] at hparams
      have hlength : bound.length = (bound.take MatchParams.maxInline).length :=
        congrArg _ (Option.some.inj hparams)
      rw [← length_of_bindings hbound, hlength]
      exact length_take_le _ _
    · exact absurd hselected.2.1 (hnone _ _ hselected.1)
  · intro hsmall result hresult
    rcases hspec with ⟨entry, tokens, bound, hselected, hbound, hat⟩ | ⟨hnone, _⟩
    · obtain rfl : _ = result := Option.some.inj (hat.symm.trans hresult)
      refine ⟨entry, hselected.1.1, rfl, ?_⟩
      have hle : bound.length ≤ MatchParams.maxInline := by
        rw [length_of_bindings hbound]
        exact hsmall _ _ hselected
      rw [patternBindings, hselected.1.2.1, bind_some, hbound, take_of_length_le hle]
    · simp [hnone] at hresult

/-- One route with nine parameters. -/
def wideInserts : List (Bytes × ℕ) :=
  [(ascii "/\x7ba\x7d/\x7bb\x7d/\x7bc\x7d/\x7bd\x7d/\x7be\x7d/\x7bf\x7d/\x7bg\x7d/\x7bh\x7d/\x7bi\x7d", 0)]

theorem at_sound_iff_wide : ∃ router, Router.insertAll {} wideInserts = some router ∧
    ((∀ result, router.at (ascii "/1/2/3/4/5/6/7/8/9") = some result →
        Sound wideInserts (ascii "/1/2/3/4/5/6/7/8/9") result) ↔
      ∀ entry tokens, Selected wideInserts (ascii "/1/2/3/4/5/6/7/8/9") entry tokens →
        paramCount tokens ≤ MatchParams.maxInline) := by
  obtain ⟨router, hrun⟩ := isSome_iff_exists.mp
    (by decide +kernel : (Router.insertAll {} wideInserts).isSome)
  exact ⟨router, hrun, at_sound_iff _ _ _ hrun (by decide)
    (by unfold CatchAllsFinal; decide +kernel) (by decide)⟩

/-- The ninth binding is missing from the match. -/
theorem at_not_sound : ¬ ∀ inserts router path result,
    Router.insertAll {} inserts = some router → CatchAllsFinal inserts →
      router.at path = some result → Sound inserts path result := by
  intro hall
  obtain ⟨router, hrun⟩ := isSome_iff_exists.mp
    (by decide +kernel : (Router.insertAll {} wideInserts).isSome)
  have hcount : (Router.insertAll {} wideInserts).bind
      (fun router => (router.at (ascii "/1/2/3/4/5/6/7/8/9")).map (·.params.length)) =
        some 8 := by
    decide +kernel
  rw [hrun] at hcount
  obtain ⟨result, hat, hlength⟩ := map_eq_some_iff.mp hcount
  have hbindings : ∀ entry ∈ wideInserts,
      (patternBindings entry.1 (ascii "/1/2/3/4/5/6/7/8/9")).map List.length = some 9 := by
    decide +kernel
  obtain ⟨entry, hentry, _, hbound⟩ := hall _ _ _ _ hrun
    (by unfold CatchAllsFinal; decide +kernel) hat
  have hnine := hbindings _ hentry
  rw [hbound, map_some, hlength] at hnine
  simp at hnine

/-! ## The order of insertions -/

section Order

variable {inserts' : List (Bytes × ℕ)} {router router' : Router}

/-- Neither of two insertions takes the place of the other. -/
def Beside (first second : Bytes × ℕ) : Prop :=
  ∀ left ∈ patternTokens first.1, ∀ right ∈ patternTokens second.1, Compatible rival left right

instance Beside.symm : Std.Symm Beside :=
  ⟨fun _ _ hfirst _ hleft _ hright => (hfirst _ hright _ hleft).symm⟩

/-- No insertion takes the place of another. -/
def Independent (inserts : List (Bytes × ℕ)) : Prop := inserts.Pairwise Beside

theorem Independent.perm (hindependent : Independent inserts) (hperm : inserts.Perm inserts') :
    Independent inserts' :=
  (hperm.pairwise_iff fun hfirst => Beside.symm.symm _ _ hfirst).mp hindependent

theorem Independent.eq_of_tokens (hindependent : Independent inserts) {entry other : Bytes × ℕ}
    (hentry : entry ∈ inserts) (hother : other ∈ inserts) {tokens : List Token}
    (htokens : patternTokens entry.1 = some tokens) (hsame : patternTokens other.1 = some tokens) :
    entry = other := by
  by_contra hne
  exact (hindependent.forall hentry hother hne _ htokens _ hsame).1 rfl

theorem Independent.lastInsert_iff (hindependent : Independent inserts) {pattern : Bytes}
    (hstatic : openBrace ∉ pattern) (number : ℕ) :
    LastInsert inserts pattern number ↔ (pattern, number) ∈ inserts := by
  have htokens := patternTokens_static_pattern hstatic
  constructor
  · rintro ⟨before, later, rfl, -⟩
    simp
  · intro hmem
    obtain ⟨before, later, rfl⟩ := append_of_mem hmem
    refine ⟨before, later, rfl, fun next hnext heq => ?_⟩
    have hcompatible := (pairwise_cons.mp (pairwise_append.mp hindependent).2.1).1 _ hnext
    exact (hcompatible _ htokens _ (heq ▸ htokens)).1 rfl

theorem trieTable_perm (hindependent : Independent inserts) (hperm : inserts.Perm inserts') :
    trieTable inserts = trieTable inserts' := by
  apply tableOf_perm ((hperm.filter _).filterMap _)
  rw [pairwise_filterMap]
  refine (hindependent.sublist filter_sublist).imp fun hcompatible word hword other hother => ?_
  obtain ⟨left, hleft, rfl⟩ := map_eq_some_iff.mp hword
  obtain ⟨right, hright, rfl⟩ := map_eq_some_iff.mp hother
  exact hcompatible _ hleft _ hright

theorem Serves.perm (hserves : Serves inserts router) (hindependent : Independent inserts)
    (hperm : inserts.Perm inserts') : Serves inserts' router where
  tokens entry hentry := hserves.tokens _ (hperm.mem_iff.mpr hentry)
  trie := hperm.length_eq ▸ trieTable_perm hindependent hperm ▸ hserves.trie
  static path index := by
    rw [hserves.static]
    refine and_congr_right fun hstatic => exists_congr fun number => and_congr_right fun _ => ?_
    rw [hindependent.lastInsert_iff hstatic, (hindependent.perm hperm).lastInsert_iff hstatic,
      hperm.mem_iff]

/-- What a router answers depends on what it holds only. -/
theorem Serves.at_eq (hserves : Serves inserts router) (hserves' : Serves inserts router')
    (hindependent : Independent inserts) (hfinal : CatchAllsFinal inserts) (path : Bytes) :
    router.at path = router'.at path := by
  rcases at_spec hserves hfinal path with
    ⟨entry, tokens, bound, hselected, hbound, hat⟩ | ⟨hat, hnone⟩
  · rcases at_spec hserves' hfinal path with
      ⟨other, tokens', bound', hselected', hbound', hat'⟩ | ⟨hat', hnone'⟩
    · have hsame : tokens' = tokens := by
        rcases hselected.2.2 _ _ hselected'.1 hselected'.2.1 with h | h
        · exact h
        · rcases hselected'.2.2 _ _ hselected.1 hselected.2.1 with h' | h'
          · exact h'.symm
          · rw [beats_asymm h] at h'
            cases h'
      subst hsame
      obtain rfl := hindependent.eq_of_tokens hselected.1.1 hselected'.1.1 hselected.1.2.1
        hselected'.1.2.1
      rw [hbound] at hbound'
      cases hbound'
      rw [hat, hat']
    · exact absurd hselected.2.1 (hnone' _ _ hselected.1)
  · rcases at_spec hserves' hfinal path with
      ⟨other, tokens', bound', hselected', -, -⟩ | ⟨hat', -⟩
    · exact absurd hselected'.2.1 (hnone _ _ hselected'.1)
    · rw [hat, hat']

/-- Routes of which none takes the place of another may be registered in any order. -/
theorem at_perm (hperm : inserts.Perm inserts') (hindependent : Independent inserts)
    (hcount : inserts.length ≤ 32768) (hfinal : CatchAllsFinal inserts)
    (hrun : Router.insertAll {} inserts = some router)
    (hrun' : Router.insertAll {} inserts' = some router') (path : Bytes) :
    router.at path = router'.at path := by
  have hserves : Serves inserts router := serves_empty.insertAll _ hcount hrun
  have hserves' : Serves inserts' router' :=
    serves_empty.insertAll _ (hperm.length_eq ▸ hcount) hrun'
  exact hserves.at_eq (hserves'.perm (hindependent.perm hperm) hperm.symm) hindependent hfinal path

end Order

/-- A route with a parameter and one without. -/
def mixedInserts : List (Bytes × ℕ) := [(ascii "/users/\x7bid\x7d", 0), (ascii "/users/me", 1)]

theorem at_perm_mixed : ∃ router router', Router.insertAll {} mixedInserts = some router ∧
    Router.insertAll {} mixedInserts.reverse = some router' ∧
      router.at (ascii "/users/me") = router'.at (ascii "/users/me") := by
  obtain ⟨router, hrun⟩ := isSome_iff_exists.mp
    (by decide +kernel : (Router.insertAll {} mixedInserts).isSome)
  obtain ⟨router', hrun'⟩ := isSome_iff_exists.mp
    (by decide +kernel : (Router.insertAll {} mixedInserts.reverse).isSome)
  exact ⟨router, router', hrun, hrun', at_perm (reverse_perm _).symm
    (by unfold Independent Beside Compatible; decide +kernel) (by decide)
    (by unfold CatchAllsFinal; decide +kernel) hrun hrun' _⟩

end AstraApi.Routing
