import AstraApi.Dispatch.Guards
import AstraApi.Http.FastPath

/-!
# Trusted hosts

`dispatch_one_request` tests the `Host` that its loop over the headers has picked out,
and `TrustedHostMiddleware` is the test in Python for the same list.
-/

namespace AstraApi.Dispatch

open List
open AstraApi.Http
open AstraApi.Response (CorsConfig buildHttpErrorResponse)

/-! ## The list -/

def star : Byte := 42
def dot : Byte := 46

/-- A host without its port. -/
def hostPart (host : Bytes) : Bytes := host.takeWhile (· ≠ Http.colon)

/-- `PyUnicode_AsUTF8`, read up to the first NUL. -/
def asUtf8 (text : Text) : Option Bytes := text.utf8.map Response.cString

/-- `configure_trusted_hosts`: an entry without an encoding is left out. -/
def configureTrustedHosts (hosts : List Text) : TrustedHostConfig :=
  let allowed := hosts.filterMap asUtf8
  { allowAnyHost := allowed.contains (ascii "*"), allowedHosts := allowed }

def Below (bare name : Bytes) : Prop := name = bare ∨ ∃ sub, sub ≠ [] ∧ name = sub ++ dot :: bare

/-- A host that an entry of the list stands for, letter by letter. -/
def AsWritten (entry name : Bytes) : Prop :=
  name = entry ∨ ∃ bare, bare ≠ [] ∧ entry = star :: dot :: bare ∧ Below bare name

/-- The same with letters of either case. -/
def IgnoringCase (entry name : Bytes) : Prop :=
  AsWritten (entry.map Http.lower) (name.map Http.lower)

/-! ## The middleware -/

def lowerLatin1 (c : CodePoint) : CodePoint :=
  if (65 ≤ c.val ∧ c.val ≤ 90) ∨ (192 ≤ c.val ∧ c.val ≤ 222 ∧ c.val ≠ 215) then c + 32 else c

/-- `str.lower`, which goes character by character as long as all are Latin-1. -/
def Lowers (lower : Text → Text) : Prop :=
  ∀ text : Text, (∀ c ∈ text, c.val < 256) → lower text = text.map lowerLatin1

structure TrustedHostMiddleware where
  allowAny : Bool := false
  exactHosts : List Text := []
  wildcardSuffixes : List Text := []
  wildcardBareDomains : List Text := []

namespace TrustedHostMiddleware

variable (lower : Text → Text)

def init (hosts : List Text) : TrustedHostMiddleware :=
  if plainText "*" ∈ hosts then { allowAny := true }
  else
    let lowered := hosts.map lower
    let wildcards := lowered.filter fun h => (plainText "*.").isPrefixOf h
    { exactHosts := lowered.filter fun h => !(plainText "*.").isPrefixOf h
      wildcardSuffixes := wildcards.map (List.drop 1)
      wildcardBareDomains := wildcards.map (List.drop 2) }

def isHostAllowed (middleware : TrustedHostMiddleware) (host : Text) : Bool :=
  let hostWithoutPort := lower (host.takeWhile (· ≠ 58))
  middleware.allowAny || middleware.exactHosts.contains hostWithoutPort ||
    middleware.wildcardBareDomains.contains hostWithoutPort ||
    middleware.wildcardSuffixes.any fun suffix => suffix.isSuffixOf hostWithoutPort

end TrustedHostMiddleware

/-! ## What the two tests accept -/

theorem below_iff (bare name : Bytes) :
    Below bare name ↔
      (((dot :: bare).isSuffixOf name && bare.length + 1 < name.length) || name == bare) = true := by
  simp only [Below, Bool.or_eq_true, Bool.and_eq_true, isSuffixOf_iff_suffix,
    decide_eq_true_eq, beq_iff_eq]
  constructor
  · rintro (rfl | ⟨sub, hsub, rfl⟩)
    · exact .inr rfl
    · left
      have hlength := length_pos_iff.mpr hsub
      refine ⟨suffix_append _ _, ?_⟩
      rw [length_append, length_cons]
      omega
  · rintro (⟨⟨sub, rfl⟩, hlength⟩ | rfl)
    · right
      refine ⟨sub, ?_, rfl⟩
      rintro rfl
      simp at hlength
    · exact .inl rfl

theorem checkTrustedHost_iff {config : TrustedHostConfig} (hany : config.allowAnyHost = false)
    (host : Bytes) :
    checkTrustedHost config host = true ↔
      ∃ entry ∈ config.allowedHosts, AsWritten entry (hostPart host) := by
  simp only [checkTrustedHost, hany, Bool.false_or, Bool.or_eq_true, contains_iff_mem,
    any_eq_true, AsWritten]
  constructor
  · rintro (hmem | ⟨entry, hmem, hmatch⟩)
    · exact ⟨_, hmem, .inl rfl⟩
    · split at hmatch
      · rename_i bare
        rw [Bool.and_eq_true, decide_eq_true_eq] at hmatch
        exact ⟨_, hmem, .inr ⟨bare, hmatch.1, rfl, (below_iff _ _).mpr hmatch.2⟩⟩
      · cases hmatch
  · rintro ⟨entry, hmem, rfl | ⟨bare, hbare, rfl, hbelow⟩⟩
    · exact .inl hmem
    · right
      refine ⟨_, hmem, ?_⟩
      simp only [star, dot]
      rw [Bool.and_eq_true, decide_eq_true_eq]
      exact ⟨hbare, (below_iff _ _).mp hbelow⟩

def LetsIn (lower : Text → Text) (entry name : Text) : Prop :=
  entry = plainText "*" ∨ lower name = lower entry ∨
    ∃ bare, lower entry = plainText "*." ++ bare ∧
      (lower name = bare ∨ plainText "." ++ bare <:+ lower name)

theorem isHostAllowed_iff (lower : Text → Text) (hosts : List Text) (host : Text) :
    (TrustedHostMiddleware.init lower hosts).isHostAllowed lower host = true ↔
      ∃ entry ∈ hosts, LetsIn lower entry (host.takeWhile (· ≠ 58)) := by
  simp only [TrustedHostMiddleware.isHostAllowed, TrustedHostMiddleware.init, LetsIn]
  split
  · rename_i hstar
    exact iff_of_true rfl ⟨_, hstar, .inl rfl⟩
  · rename_i hstar
    simp only [Bool.false_or, Bool.or_eq_true, contains_iff_mem, any_eq_true,
      mem_map, mem_filter, Bool.not_eq_true', isPrefixOf_iff_prefix,
      isSuffixOf_iff_suffix]
    constructor
    · rintro ((⟨⟨entry, hmem, heq⟩, _⟩ | ⟨_, ⟨⟨entry, hmem, rfl⟩, bare, hbare⟩, heq⟩) |
        ⟨_, ⟨_, ⟨⟨entry, hmem, rfl⟩, bare, hbare⟩, rfl⟩, hsuffix⟩)
      · exact ⟨entry, hmem, .inr (.inl heq.symm)⟩
      · refine ⟨entry, hmem, .inr (.inr ⟨bare, hbare.symm, .inl ?_⟩)⟩
        rw [← heq, ← hbare]
        rfl
      · refine ⟨entry, hmem, .inr (.inr ⟨bare, hbare.symm, .inr ?_⟩)⟩
        rw [← hbare] at hsuffix
        exact hsuffix
    · rintro ⟨entry, hmem, rfl | heq | ⟨bare, hbare, heq | hsuffix⟩⟩
      · exact absurd hmem hstar
      · cases hwild : (plainText "*.").isPrefixOf (lower entry) with
        | false => exact .inl (.inl ⟨⟨entry, hmem, heq.symm⟩, by rwa [heq]⟩)
        | true =>
          right
          refine ⟨_, ⟨_, ⟨⟨entry, hmem, rfl⟩, isPrefixOf_iff_prefix.mp hwild⟩, rfl⟩, ?_⟩
          rw [heq]
          exact drop_suffix _ _
      · left
        right
        refine ⟨_, ⟨⟨entry, hmem, rfl⟩, bare, hbare.symm⟩, ?_⟩
        rw [hbare, heq]
        rfl
      · right
        refine ⟨_, ⟨_, ⟨⟨entry, hmem, rfl⟩, bare, hbare.symm⟩, rfl⟩, ?_⟩
        rw [hbare]
        exact hsuffix

/-! ## Where they agree -/

def Stands (entry : Text) (name : Bytes) : Prop :=
  ∃ bytes, asUtf8 entry = some bytes ∧ (bytes = ascii "*" ∨ AsWritten bytes name)

theorem checkTrustedHost_configure (hosts : List Text) (host : Bytes) :
    checkTrustedHost (configureTrustedHosts hosts) host = true ↔
      ∃ entry ∈ hosts, Stands entry (hostPart host) := by
  cases hany : (configureTrustedHosts hosts).allowAnyHost with
  | true =>
    have hstar := mem_filterMap.mp (contains_iff_mem.mp hany)
    obtain ⟨entry, hmem, hentry⟩ := hstar
    apply iff_of_true
    · simp [checkTrustedHost, hany]
    · exact ⟨entry, hmem, _, hentry, .inl rfl⟩
  | false =>
    rw [checkTrustedHost_iff hany]
    simp only [configureTrustedHosts, mem_filterMap]
    constructor
    · rintro ⟨bytes, ⟨entry, hmem, hentry⟩, hwritten⟩
      exact ⟨entry, hmem, bytes, hentry, .inr hwritten⟩
    · rintro ⟨entry, hmem, bytes, hentry, rfl | hwritten⟩
      · have hstar : ascii "*" ∈ hosts.filterMap asUtf8 :=
          mem_filterMap.mpr ⟨entry, hmem, hentry⟩
        cases hany.symm.trans (contains_iff_mem.mpr hstar)
      · exact ⟨bytes, ⟨entry, hmem, hentry⟩, hwritten⟩

/-- An entry of ASCII characters without a NUL. -/
def IsPlain (entry : Text) : Prop := ∀ c ∈ entry, 0 < c.val ∧ c.val < 128

theorem utf8_plain {entry : Text} (h : IsPlain entry) :
    entry.utf8 = some (entry.map fun c => UInt8.ofNat c.val) := by
  have hcodes : entry.mapM encodeCodePoint = some (entry.map fun c => [UInt8.ofNat c.val]) := by
    induction entry with
    | nil => rfl
    | cons c entry ih =>
      rw [mapM_cons, encodeCodePoint_ascii (h c mem_cons_self).2,
        ih fun other hmem => h _ (mem_cons_of_mem c hmem)]
      rfl
  rw [Text.utf8, hcodes, Option.map_some]
  apply congrArg _
  exact flatMap_pure_eq_map _ _

theorem asUtf8_plain {entry : Text} (h : IsPlain entry) {bytes : Bytes}
    (hentry : asUtf8 entry = some bytes) : Text.ofLatin1 bytes = entry := by
  rw [asUtf8, utf8_plain h, Option.map_some, Option.some.injEq] at hentry
  have hall : ∀ b ∈ entry.map fun c => UInt8.ofNat c.val, decide (b ≠ 0) = true := by
    intro b hmem
    obtain ⟨c, hc, rfl⟩ := mem_map.mp hmem
    have hcode := h c hc
    apply decide_eq_true
    intro hzero
    have := congrArg UInt8.toNat hzero
    simp at this
    omega
  rw [Response.cString, takeWhile_eq_self_iff.mpr hall] at hentry
  subst hentry
  rw [Text.ofLatin1, map_map]
  calc entry.map _ = entry.map id := ?_
    _ = entry := map_id _
  apply map_congr_left
  intro c hc
  have hcode := (h c hc).2
  apply Fin.ext
  simp only [Function.comp_apply, Fin.val_ofNat, UInt8.toNat_ofNat', id]
  omega

theorem ofLatin1_lt (bytes : Bytes) : ∀ c ∈ Text.ofLatin1 bytes, c.val < 256 := by
  intro c hc
  obtain ⟨b, -, rfl⟩ := mem_map.mp hc
  rw [Fin.val_ofNat, Nat.mod_eq_of_lt (b.toNat_lt.trans (by norm_num))]
  exact b.toNat_lt

theorem ofLatin1_hostPart (host : Bytes) :
    Text.ofLatin1 (hostPart host) = (Text.ofLatin1 host).takeWhile (· ≠ 58) := by
  rw [hostPart, Text.ofLatin1, Text.ofLatin1, takeWhile_map]
  apply congrArg _
  apply congrArg (List.takeWhile · _)
  funext b
  have hlt := b.toNat_lt
  rw [Function.comp_apply, decide_eq_decide, not_iff_not, Fin.ext_iff, Fin.val_ofNat,
    Nat.mod_eq_of_lt (by omega), ← UInt8.toNat_inj]
  rfl

theorem Stands.letsIn {lower : Text → Text} (hlower : Lowers lower) {entry : Text} {name : Bytes}
    (hplain : IsPlain entry) (h : Stands entry name) :
    LetsIn lower entry (Text.ofLatin1 name) := by
  obtain ⟨bytes, hentry, hstands⟩ := h
  obtain rfl := asUtf8_plain hplain hentry
  have hlatin : ∀ bytes, lower (Text.ofLatin1 bytes) = (Text.ofLatin1 bytes).map lowerLatin1 :=
    fun bytes => hlower _ (ofLatin1_lt _)
  rcases hstands with rfl | rfl | ⟨bare, _, rfl, rfl | ⟨sub, _, rfl⟩⟩
  · exact .inl (by decide)
  · exact .inr (.inl rfl)
  · refine .inr (.inr ⟨(Text.ofLatin1 _).map lowerLatin1, ?_, .inl (hlatin _)⟩)
    rw [hlatin]
    rfl
  · refine .inr (.inr ⟨(Text.ofLatin1 bare).map lowerLatin1, ?_, .inr ?_⟩)
    · rw [hlatin]
      rfl
    · have happend : Text.ofLatin1 (sub ++ dot :: bare) =
          Text.ofLatin1 sub ++ Text.ofLatin1 (dot :: bare) := map_append
      rw [hlatin, happend, map_append]
      exact suffix_append _ _

theorem hosts_agree_iff {lower : Text → Text} (hlower : Lowers lower) (hosts : List Text)
    (host : Bytes) :
    (TrustedHostMiddleware.init lower hosts).isHostAllowed lower (Text.ofLatin1 host) =
        checkTrustedHost (configureTrustedHosts hosts) host ↔
      ((∃ entry ∈ hosts, LetsIn lower entry (Text.ofLatin1 (hostPart host))) →
        ∃ entry ∈ hosts, Stands entry (hostPart host)) ∧
      ∀ entry ∈ hosts, ¬ IsPlain entry → Stands entry (hostPart host) →
        ∃ other ∈ hosts, LetsIn lower other (Text.ofLatin1 (hostPart host)) := by
  rw [Bool.eq_iff_iff, isHostAllowed_iff, checkTrustedHost_configure, ofLatin1_hostPart]
  constructor
  · intro h
    exact ⟨h.mp, fun entry hmem _ hstands => h.mpr ⟨entry, hmem, hstands⟩⟩
  · intro h
    refine ⟨h.1, ?_⟩
    rintro ⟨entry, hmem, hstands⟩
    by_cases hplain : IsPlain entry
    · refine ⟨entry, hmem, ?_⟩
      rw [← ofLatin1_hostPart]
      exact hstands.letsIn hlower hplain
    · exact h.2 entry hmem hplain hstands

/-! ## The headers that the loop comes to -/

/-- How many headers of this name the loop counts: those without a value, up to the
first one that has one. -/
def counted (name : String) : List Header → ℕ
  | [] => 0
  | header :: headers =>
    if iequals header.1 name then
      if header.2 = [] then counted name headers + 1 else 1
    else counted name headers

section Examined

variable (wantOrigin skipBody : Bool)

def countedAll (headers : List Header) : ℕ :=
  counted "host" headers + (if wantOrigin then counted "origin" headers else 0) +
    (if skipBody then 0 else counted "content-type" headers) + counted "authorization" headers +
    counted "accept-encoding" headers

/-- A `Host` with a value comes before the loop has counted all that it needs. -/
def Examined (headers : List Header) : Prop :=
  ∃ before header after, headers = before ++ header :: after ∧ iequals header.1 "host" ∧
    header.2 ≠ [] ∧ countedAll wantOrigin skipBody before < needed wantOrigin skipBody

/-- What the loop will count once it has seen some headers. -/
def pending (value : Bytes) (name : String) (headers : List Header) : ℕ :=
  if value = [] then counted name headers else 0

def pendingAll (noted : Noted) (headers : List Header) : ℕ :=
  pending noted.host "host" headers +
    (if wantOrigin then pending noted.origin "origin" headers else 0) +
    (if skipBody then 0 else pending noted.contentType "content-type" headers) +
    pending noted.authorization "authorization" headers +
    pending noted.acceptEncoding "accept-encoding" headers

theorem iequals_eq_false {name : Bytes} {word : String} (h : iequals name word = true)
    (other : String) (hne : ascii word ≠ ascii other) : iequals name other = false := by
  rw [iequals, beq_eq_false_iff_ne, eq_of_beq h]
  exact hne

theorem named_cases (name : Bytes) :
    (iequals name "host" = true ∧ iequals name "origin" = false ∧
      iequals name "content-type" = false ∧ iequals name "authorization" = false ∧
      iequals name "accept-encoding" = false) ∨
    (iequals name "host" = false ∧ iequals name "origin" = true ∧
      iequals name "content-type" = false ∧ iequals name "authorization" = false ∧
      iequals name "accept-encoding" = false) ∨
    (iequals name "host" = false ∧ iequals name "origin" = false ∧
      iequals name "content-type" = true ∧ iequals name "authorization" = false ∧
      iequals name "accept-encoding" = false) ∨
    (iequals name "host" = false ∧ iequals name "origin" = false ∧
      iequals name "content-type" = false ∧ iequals name "authorization" = true ∧
      iequals name "accept-encoding" = false) ∨
    (iequals name "host" = false ∧ iequals name "origin" = false ∧
      iequals name "content-type" = false ∧ iequals name "authorization" = false ∧
      iequals name "accept-encoding" = true) ∨
    (iequals name "host" = false ∧ iequals name "origin" = false ∧
      iequals name "content-type" = false ∧ iequals name "authorization" = false ∧
      iequals name "accept-encoding" = false) := by
  by_cases h1 : iequals name "host" = true
  · have h := iequals_eq_false h1
    simp [h "origin" (by decide), h "content-type" (by decide), h "authorization" (by decide), h "accept-encoding" (by decide)]
  by_cases h2 : iequals name "origin" = true
  · have h := iequals_eq_false h2
    simp [h "host" (by decide), h "content-type" (by decide), h "authorization" (by decide), h "accept-encoding" (by decide)]
  by_cases h3 : iequals name "content-type" = true
  · have h := iequals_eq_false h3
    simp [h "host" (by decide), h "origin" (by decide), h "authorization" (by decide), h "accept-encoding" (by decide)]
  by_cases h4 : iequals name "authorization" = true
  · have h := iequals_eq_false h4
    simp [h "host" (by decide), h "origin" (by decide), h "content-type" (by decide), h "accept-encoding" (by decide)]
  simp only [h1, h2, h3, h4]
  cases iequals name "accept-encoding" <;> simp

variable {name : String} {header : Header} (value : Bytes) (headers : List Header)

theorem pending_skip (h : iequals header.1 name = false) :
    pending value name (header :: headers) = pending value name headers := by
  rw [pending, pending, counted, h, if_neg Bool.false_ne_true]

variable {value}

theorem pending_step (h : iequals header.1 name = true) :
    pending value name (header :: headers) =
      pending (if value = [] then header.2 else value) name headers +
        (if value = [] then 1 else 0) := by
  by_cases hvalue : value = []
  · simp only [pending, counted, h, hvalue, if_true]
    split <;> rfl
  · simp [pending, hvalue]

theorem noteHeader_pending {noted : Noted} (hfound : noted.found < needed wantOrigin skipBody)
    (header : Header) (headers : List Header) :
    (noteHeader wantOrigin skipBody noted header).found +
        pendingAll wantOrigin skipBody (noteHeader wantOrigin skipBody noted header) headers =
      noted.found + pendingAll wantOrigin skipBody noted (header :: headers) := by
  have hstep : ¬ needed wantOrigin skipBody ≤ noted.found := not_le.mpr hfound
  rcases named_cases header.1 with ⟨h1, h2, h3, h4, h5⟩ | ⟨h1, h2, h3, h4, h5⟩ |
    ⟨h1, h2, h3, h4, h5⟩ | ⟨h1, h2, h3, h4, h5⟩ | ⟨h1, h2, h3, h4, h5⟩ | ⟨h1, h2, h3, h4, h5⟩
  · have hnote : noteHeader wantOrigin skipBody noted header =
        { noted with
          host := if noted.host = [] then header.2 else noted.host
          found := noted.found + if noted.host = [] then 1 else 0 } := by
      by_cases hvalue : noted.host = [] <;> simp [noteHeader, hstep, hvalue, h1, h2, h3, h4, h5]
    simp only [hnote, pendingAll, pending_step _ h1, pending_skip _ _ h2, pending_skip _ _ h3,
      pending_skip _ _ h4, pending_skip _ _ h5]
    omega
  · have hnote : noteHeader wantOrigin skipBody noted header =
        if wantOrigin then
          { noted with
            origin := if noted.origin = [] then header.2 else noted.origin
            found := noted.found + if noted.origin = [] then 1 else 0 }
        else noted := by
      by_cases hvalue : noted.origin = [] <;> cases wantOrigin <;>
        simp [noteHeader, hstep, hvalue, h1, h2, h3, h4, h5]
    rw [hnote]
    cases wantOrigin <;>
      simp only [pendingAll, pending_skip _ _ h1, pending_step _ h2, pending_skip _ _ h3,
        pending_skip _ _ h4, pending_skip _ _ h5, if_true, if_false, Bool.false_eq_true]
    omega
  · have hnote : noteHeader wantOrigin skipBody noted header =
        if skipBody then noted
        else
          { noted with
            contentType := if noted.contentType = [] then header.2 else noted.contentType
            found := noted.found + if noted.contentType = [] then 1 else 0 } := by
      by_cases hvalue : noted.contentType = [] <;> cases skipBody <;>
        simp [noteHeader, hstep, hvalue, h1, h2, h3, h4, h5]
    rw [hnote]
    cases skipBody <;>
      simp only [pendingAll, pending_skip _ _ h1, pending_skip _ _ h2, pending_step _ h3,
        pending_skip _ _ h4, pending_skip _ _ h5, if_true, if_false, Bool.false_eq_true]
    omega
  · have hnote : noteHeader wantOrigin skipBody noted header =
        { noted with
          authorization := if noted.authorization = [] then header.2 else noted.authorization
          found := noted.found + if noted.authorization = [] then 1 else 0 } := by
      by_cases hvalue : noted.authorization = [] <;>
        simp [noteHeader, hstep, hvalue, h1, h2, h3, h4, h5]
    simp only [hnote, pendingAll, pending_skip _ _ h1, pending_skip _ _ h2, pending_skip _ _ h3,
      pending_step _ h4, pending_skip _ _ h5]
    omega
  · have hnote : noteHeader wantOrigin skipBody noted header =
        { noted with
          acceptEncoding := if noted.acceptEncoding = [] then header.2 else noted.acceptEncoding
          found := noted.found + if noted.acceptEncoding = [] then 1 else 0 } := by
      by_cases hvalue : noted.acceptEncoding = [] <;>
        simp [noteHeader, hstep, hvalue, h1, h2, h3, h4, h5]
    simp only [hnote, pendingAll, pending_skip _ _ h1, pending_skip _ _ h2, pending_skip _ _ h3,
      pending_skip _ _ h4, pending_step _ h5]
    omega
  · have hnote : noteHeader wantOrigin skipBody noted header = noted := by
      simp [noteHeader, h1, h2, h3, h4, h5]
    simp [hnote, pendingAll, pending_skip _ _ h1, pending_skip _ _ h2, pending_skip _ _ h3, pending_skip _ _ h4, pending_skip _ _ h5]

theorem noteHeader_host (noted : Noted) (header : Header) :
    (noteHeader wantOrigin skipBody noted header).host =
      if noted.found < needed wantOrigin skipBody ∧ noted.host = [] ∧ iequals header.1 "host"
      then header.2 else noted.host := by
  simp only [noteHeader, ← not_le]
  split_ifs <;> simp_all

theorem foldl_noteHeader_host (headers : List Header) (noted : Noted) :
    (headers.foldl (noteHeader wantOrigin skipBody) noted).host ≠ [] ↔
      noted.host ≠ [] ∨ ∃ before header after, headers = before ++ header :: after ∧
        iequals header.1 "host" ∧ header.2 ≠ [] ∧
        noted.found + pendingAll wantOrigin skipBody noted before < needed wantOrigin skipBody := by
  induction headers generalizing noted with
  | nil => simp
  | cons first headers ih =>
    rw [foldl_cons, ih, noteHeader_host]
    constructor
    · rintro (hhost | ⟨before, header, after, rfl, hname, hvalue, hcount⟩)
      · split at hhost
        · rename_i hfirst
          exact .inr ⟨[], first, headers, rfl, hfirst.2.2, hhost, by simpa [pendingAll, pending,
            counted] using hfirst.1⟩
        · exact .inl hhost
      · right
        refine ⟨first :: before, header, after, rfl, hname, hvalue, ?_⟩
        by_cases hfound : noted.found < needed wantOrigin skipBody
        · rwa [noteHeader_pending _ _ hfound] at hcount
        · rw [noteHeader, if_pos (not_lt.mp hfound)] at hcount
          omega
    · rintro (hhost | ⟨before, header, after, hheaders, hname, hvalue, hcount⟩)
      · left
        rw [if_neg fun hfirst => hhost hfirst.2.1]
        exact hhost
      · have hfound : noted.found < needed wantOrigin skipBody := by omega
        cases before with
        | nil =>
          left
          obtain ⟨rfl, rfl⟩ := List.cons.inj hheaders
          split
          · exact hvalue
          · rename_i hfirst
            exact fun hhost => hfirst ⟨hfound, hhost, hname⟩
        | cons other before =>
          right
          obtain ⟨rfl, rfl⟩ := List.cons.inj hheaders
          refine ⟨before, header, after, rfl, hname, hvalue, ?_⟩
          rwa [noteHeader_pending _ _ hfound]

theorem examined_iff (headers : List Header) :
    (headers.foldl (noteHeader wantOrigin skipBody) {}).host ≠ [] ↔
      Examined wantOrigin skipBody headers := by
  rw [foldl_noteHeader_host]
  simp [Examined, pendingAll, pending, countedAll]

theorem mem_of_noted (headers : List Header) (noted : Noted) :
    (headers.foldl (noteHeader wantOrigin skipBody) noted).host = noted.host ∨
      ∃ header ∈ headers, iequals header.1 "host" ∧
        header.2 = (headers.foldl (noteHeader wantOrigin skipBody) noted).host := by
  induction headers generalizing noted with
  | nil => exact .inl rfl
  | cons first headers ih =>
    rw [foldl_cons]
    rcases ih (noteHeader wantOrigin skipBody noted first) with hsame | ⟨header, hmem, hheader⟩
    · rw [hsame, noteHeader_host]
      split
      · rename_i hfirst
        exact .inr ⟨first, mem_cons_self, hfirst.2.2, rfl⟩
      · exact .inl rfl
    · exact .inr ⟨header, mem_cons_of_mem _ hmem, hheader⟩

end Examined

/-! ## The gate -/

/-- The headers of a request, those that are not stored included. -/
def requestFields (llhttp : Llhttp) (data : Bytes) : List Header :=
  match fastParse data with
  | some parsed => parsed.headers
  | none => (llhttp data).fields

theorem scanHeaders_count {slots : ℕ} {data tail : Bytes} {headers : List Header}
    (h : scanHeaders slots data = some (headers, tail)) : headers.length ≤ slots := by
  induction slots generalizing data headers with
  | zero => cases h
  | succ slots ih =>
    rcases scanHeaders_cases h with ⟨rfl, -⟩ | ⟨name, afterName, more, -, -, rfl, hnext⟩
    · exact Nat.zero_le _
    · exact Nat.succ_le_succ (ih hnext)

theorem headers_of_parseStep {llhttp : Llhttp} {data : Bytes} {request : ParsedHttpRequest}
    (h : parseStep llhttp data = .request request) :
    request.headers = (requestFields llhttp data).take maxHeaders := by
  simp only [parseStep, requestFields] at h ⊢
  cases hfast : fastParse data with
  | some parsed =>
    rw [hfast] at h
    obtain rfl := ParseResult.request.inj h
    obtain ⟨isHead, target, -, hscan⟩ := scanRequest_of_fastParse hfast
    simp only [scanRequest] at hscan
    split at hscan
    · split at hscan
      · cases hscan
      · rename_i headers tail hheaders
        split at hscan
        · cases hscan
        · obtain rfl := Option.some.inj hscan
          exact (take_of_length_le (scanHeaders_count hheaders)).symm
    · cases hscan
  | none =>
    rw [hfast] at h
    rw [(fields_of_request h).2.2.2.1, record]
    cases (llhttp data).headersComplete with
    | none => rfl
    | some complete => dsimp only; split_ifs <;> rfl

section Gate

variable {O X : Type*} (app : CoreApp O X) (request : ParsedHttpRequest)

/-- Answered with status 400 ahead of the route. -/
def Front.BadRequest : Front O X → Prop
  | .answered effects => ∃ data ∈ Effect.writes effects, data.take 12 = ascii "HTTP/1.1 400"
  | _ => False

theorem errorResponse_starts {status : ℤ} (hbody : ¬ (status = 204 ∨ status = 304))
    (message : Bytes) (keepAlive : Bool) (cors : Option (CorsConfig × Bytes)) :
    Response.statusLine status <+: buildHttpErrorResponse status message keepAlive cors none := by
  unfold buildHttpErrorResponse Response.buildHttpResponse
  rw [if_neg hbody]
  cases hcached : Response.cachedStatusLine status with
  | some prepared =>
    have hline : Response.statusLine status = prepared := by
      rw [Response.statusLine, hcached, Option.getD_some]
    rw [hline]
    cases cors <;> simp only [Response.buildFastJsonResponse, append_assoc] <;>
      exact prefix_append _ _
  | none =>
    cases cors <;> simp only [append_assoc] <;> exact prefix_append _ _

theorem take_of_starts {start data : Bytes} (h : start <+: data) (hlength : 12 ≤ start.length) :
    data.take 12 = start.take 12 := by
  obtain ⟨rest, rfl⟩ := h
  exact take_append_of_le_length hlength

theorem not_badRequest {start data : Bytes} {effects : List Effect}
    (hwrites : Effect.writes effects = [data]) (hstart : start <+: data)
    (hlength : 12 ≤ start.length) (hne : start.take 12 ≠ ascii "HTTP/1.1 400") :
    ¬ (Front.answered effects : Front O X).BadRequest := by
  rintro ⟨other, hmem, htake⟩
  rw [hwrites, mem_singleton] at hmem
  rw [hmem, take_of_starts hstart hlength] at htake
  exact hne htake

theorem missingResponse_starts {status : ℤ} (hbody : ¬ (status = 204 ∨ status = 304))
    (message : String) :
    Response.statusLine status <+: app.missingResponse request status message := by
  rw [CoreApp.missingResponse]
  split
  · exact errorResponse_starts hbody _ _ _
  · exact errorResponse_starts hbody _ _ _

theorem slashRedirectResponse_starts (path : Bytes) :
    ascii "HTTP/1.1 307 Temporary Redirect\r\nlocation: " <+: slashRedirectResponse request path := by
  simp only [slashRedirectResponse, append_assoc]
  exact prefix_append _ _

theorem httpsRedirectResponse_starts (host : Bytes) :
    ascii "HTTP/1.1 307 Temporary Redirect\r\nLocation: https://" <+:
      httpsRedirectResponse request host := by
  simp only [httpsRedirectResponse, append_assoc]
  exact prefix_append _ _

theorem preflight_starts {response : Bytes} (h : app.preflight request = some (some response)) :
    ascii "HTTP/1.1 200 OK\r\naccess-control-allow-origin: " <+: response := by
  rw [CoreApp.preflight] at h
  split at h
  · split at h
    · rw [Option.some.injEq, buildCorsPreflightResponse] at h
      split at h
      · cases h
      · obtain rfl := Option.some.inj h
        simp only [append_assoc]
        exact prefix_append _ _
    · cases h
  · cases h

theorem routeFront_not_badRequest (limited : Bool) (found : Routing.MatchParams) :
    ¬ (app.routeFront request limited found).BadRequest := by
  rw [CoreApp.routeFront]
  split
  · exact not_badRequest rfl (missingResponse_starts _ _ (by decide) _) (by decide) (by decide)
  · split_ifs
    · exact not_badRequest rfl (missingResponse_starts _ _ (by decide) _) (by decide) (by decide)
    · exact not_badRequest rfl (errorResponse_starts (by decide) _ _ _) (by decide) (by decide)
    · split
      · exact not_badRequest rfl (errorResponse_starts (by decide) _ _ _) (by decide) (by decide)
      · exact id

theorem routing_not_badRequest (limited : Bool) : ¬ (app.routing request limited).BadRequest := by
  rw [CoreApp.routing]
  split_ifs
  · exact id
  · split
    · exact routeFront_not_badRequest _ _ _ _
    · split
      · exact not_badRequest rfl (slashRedirectResponse_starts _ _) (by decide) (by decide)
      · exact not_badRequest rfl (missingResponse_starts _ _ (by decide) _) (by decide) (by decide)

/-- Only the test of the host answers with status 400. -/
theorem front_badRequest_iff (limited : Bool) :
    (app.front request limited).BadRequest ↔ app.hostRefused request = true := by
  rw [CoreApp.front]
  split_ifs with hrefused hredirect
  · refine iff_of_true ⟨_, mem_singleton.mpr rfl, ?_⟩ hrefused
    rw [take_of_starts (errorResponse_starts (by decide) _ _ _) (by decide)]
    decide
  · refine iff_of_false ?_ hrefused
    exact not_badRequest rfl (httpsRedirectResponse_starts _ _) (by decide) (by decide)
  · refine iff_of_false ?_ hrefused
    split
    · rename_i response hresponse
      cases response with
      | none =>
        rintro ⟨data, hmem, -⟩
        cases hmem
      | some response =>
        exact not_badRequest rfl (preflight_starts _ _ hresponse) (by decide) (by decide)
    · split
      · exact id
      · exact routing_not_badRequest _ _ _

/-- The request has a `Host` that an entry of the list stands for. -/
def CarriesAllowed (config : TrustedHostConfig) (fields : List Header) : Prop :=
  ∃ header ∈ fields, iequals header.1 "host" ∧
    ∃ entry ∈ config.allowedHosts, IgnoringCase entry (hostPart header.2)

theorem AsWritten.ignoringCase {entry name : Bytes} (h : AsWritten entry name) :
    IgnoringCase entry name := by
  rcases h with rfl | ⟨bare, hbare, rfl, rfl | ⟨sub, hsub, rfl⟩⟩
  · exact .inl rfl
  · exact .inr ⟨name.map _, by simpa using hbare, rfl, .inl rfl⟩
  · refine .inr ⟨bare.map _, by simpa using hbare, rfl, .inr ⟨sub.map Http.lower, ?_, ?_⟩⟩
    · simpa using hsub
    · rw [map_append]
      rfl

/-- Whatever is let through carries a host of the list exactly if the loop comes to one
with a value, or if one that it does not come to happens to be allowed. -/
theorem gate_iff {config : TrustedHostConfig} (happ : app.trustedHosts = some config)
    (henabled : config.allowAnyHost = false) {fields : List Header}
    (hstored : request.headers = fields.take maxHeaders) (limited : Bool) :
    (¬ (app.front request limited).BadRequest → CarriesAllowed config fields) ↔
      Examined app.cors.isSome request.noBody (fields.take maxHeaders) ∨
        CarriesAllowed config fields := by
  have hexamined := examined_iff app.cors.isSome request.noBody (fields.take maxHeaders)
  have hnoted : (app.noted request).host ≠ [] ↔
      Examined app.cors.isSome request.noBody (fields.take maxHeaders) := by
    rw [CoreApp.noted, hstored]
    exact hexamined
  rw [front_badRequest_iff, ← hnoted]
  constructor
  · intro h
    by_contra hnot
    rw [not_or, not_not] at hnot
    apply hnot.2
    apply h
    simp [CoreApp.hostRefused, happ, hnot.1]
  · rintro (hhost | hcarries) hpassed
    · have haccepted : checkTrustedHost config (app.noted request).host = true := by
        simpa [CoreApp.hostRefused, happ, hhost] using hpassed
      obtain ⟨entry, hentry, hwritten⟩ := (checkTrustedHost_iff henabled _).mp haccepted
      rcases mem_of_noted app.cors.isSome request.noBody request.headers {} with
        hnone | ⟨header, hmem, hname, hvalue⟩
      · exact absurd hnone hhost
      · rw [hstored] at hmem
        refine ⟨header, mem_of_mem_take hmem, hname, entry, hentry, ?_⟩
        rw [hvalue]
        exact hwritten.ignoringCase
    · exact hcarries

/-- Where the gate refuses every request without a trusted host, and where the two tests of one
list agree. -/
theorem trusted_hosts_iff (hosts : List Text)
    (happ : app.trustedHosts = some (configureTrustedHosts hosts))
    (henabled : (configureTrustedHosts hosts).allowAnyHost = false) {llhttp : Llhttp}
    {data : Bytes} (hparse : parseStep llhttp data = .request request) (limited : Bool)
    (lower : Text → Text) (hlower : Lowers lower) (host : Bytes) :
    ((¬ (app.front request limited).BadRequest →
          CarriesAllowed (configureTrustedHosts hosts) (requestFields llhttp data)) ↔
        Examined app.cors.isSome request.noBody ((requestFields llhttp data).take maxHeaders) ∨
          CarriesAllowed (configureTrustedHosts hosts) (requestFields llhttp data)) ∧
      ((TrustedHostMiddleware.init lower hosts).isHostAllowed lower (Text.ofLatin1 host) =
          checkTrustedHost (configureTrustedHosts hosts) host ↔
        ((∃ entry ∈ hosts, LetsIn lower entry (Text.ofLatin1 (hostPart host))) →
          ∃ entry ∈ hosts, Stands entry (hostPart host)) ∧
        ∀ entry ∈ hosts, ¬ IsPlain entry → Stands entry (hostPart host) →
          ∃ other ∈ hosts, LetsIn lower other (Text.ofLatin1 (hostPart host))) :=
  ⟨gate_iff _ _ happ henabled (headers_of_parseStep hparse) _, hosts_agree_iff hlower hosts _⟩

end Gate

section Requests

def oneHost : CoreApp Empty Unit :=
  { trustedHosts := some (configureTrustedHosts [plainText "a"]) }

def noLlhttp : Llhttp := fun _ => { errno := .ok }

theorem trusted_hosts_known :
    ∃ request, parseStep noLlhttp (ascii "GET / HTTP/1.1\r\nHost: a\r\n\r\n") = .request request ∧
      (¬ (oneHost.front request false).BadRequest →
        CarriesAllowed (configureTrustedHosts [plainText "a"])
          (requestFields noLlhttp (ascii "GET / HTTP/1.1\r\nHost: a\r\n\r\n"))) ∧
      (TrustedHostMiddleware.init (List.map lowerLatin1) [plainText "a"]).isHostAllowed
          (List.map lowerLatin1) (Text.ofLatin1 (ascii "a:80")) =
        checkTrustedHost (configureTrustedHosts [plainText "a"]) (ascii "a:80") := by
  have hfast : (fastParse (ascii "GET / HTTP/1.1\r\nHost: a\r\n\r\n")).isSome := by decide
  obtain ⟨request, hfast⟩ := Option.isSome_iff_exists.mp hfast
  have hparse : parseStep noLlhttp (ascii "GET / HTTP/1.1\r\nHost: a\r\n\r\n") =
      .request request := by rw [parseStep, hfast]
  have hiff := trusted_hosts_iff oneHost _ [plainText "a"] rfl (by decide) hparse false
    _ (fun _ _ => rfl) (ascii "a:80")
  have hfields : requestFields noLlhttp (ascii "GET / HTTP/1.1\r\nHost: a\r\n\r\n") =
      [(ascii "Host", ascii "a")] := by decide
  have hplain : IsPlain (plainText "a") := by simp [IsPlain, plainText]
  refine ⟨request, hparse, hiff.1.mpr (.inr ?_), hiff.2.mpr ⟨?_, ?_⟩⟩
  · exact ⟨_, mem_singleton.mpr rfl, by decide, ascii "a", by decide, .inl (by decide)⟩
  · intro _
    exact ⟨_, mem_singleton.mpr rfl, ascii "a", by decide, .inr (.inl (by decide))⟩
  · intro entry hmem hnot
    rw [mem_singleton.mp hmem] at hnot
    exact absurd hplain hnot

/-- Three empty headers that are counted, and a host that is not trusted. -/
def crowded : Bytes :=
  ascii "GET / HTTP/1.1\r\nAuthorization:\r\nAuthorization:\r\nAuthorization:\r\nHost: b\r\n\r\n"

/-- The loop stops ahead of the host, which is let through; and the two tests differ on
a host in upper case. -/
theorem trusted_hosts_passed :
    (∃ request, parseStep noLlhttp crowded = .request request ∧
      ¬ (oneHost.front request false).BadRequest ∧
      ¬ CarriesAllowed (configureTrustedHosts [plainText "a"]) (requestFields noLlhttp crowded)) ∧
    (TrustedHostMiddleware.init (List.map lowerLatin1) [plainText "a"]).isHostAllowed
        (List.map lowerLatin1) (Text.ofLatin1 (ascii "A")) ≠
      checkTrustedHost (configureTrustedHosts [plainText "a"]) (ascii "A") := by
  have hrefused : (fastParse crowded).map (oneHost.hostRefused ·) = some false := by decide
  have hfields : requestFields noLlhttp crowded =
      [(ascii "Authorization", []), (ascii "Authorization", []), (ascii "Authorization", []),
        (ascii "Host", ascii "b")] := by decide
  have hallowed : (configureTrustedHosts [plainText "a"]).allowedHosts = [ascii "a"] := by decide
  obtain ⟨request, hfast, hrefused⟩ := Option.map_eq_some_iff.mp hrefused
  refine ⟨⟨request, by rw [parseStep, hfast], ?_, ?_⟩, by decide⟩
  · rw [front_badRequest_iff, hrefused]
    exact Bool.false_ne_true
  · rw [hfields]
    rintro ⟨header, hmem, hname, entry, hentry, hmatch⟩
    rw [hallowed, mem_singleton] at hentry
    subst hentry
    simp only [mem_cons, not_mem_nil, or_false] at hmem
    rcases hmem with rfl | rfl | rfl | rfl
    · exact absurd hname (by decide)
    · exact absurd hname (by decide)
    · exact absurd hname (by decide)
    · rcases hmatch with heq | ⟨bare, -, hentry, -⟩
      · exact absurd heq (by decide)
      · exact absurd (congrArg List.length hentry) (by simp [ascii])

end Requests

end AstraApi.Dispatch
