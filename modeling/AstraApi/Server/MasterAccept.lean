import AstraApi.Lib.Simulation

/-!
# The accept loop of the master

The master accepts connections and hands each one to a worker over a socket pair.  The
supervisor replaces the sockets of workers that have died while the loop reads the list.
-/

namespace AstraApi.Server.MasterAccept

open Simulation

variable {Worker : Type*}

/-- What the loop meets while it handles one connection: the list of sockets at each of its
readings, and the sockets on which `sendmsg` does not fail. -/
structure Handling (Worker : Type*) where
  workerSocks : ℕ → ℕ → Option Worker
  accepts : Worker → Bool

/-- The search for a socket, with the readings that are left. -/
def search (size : ℕ) (workerSocks : ℕ → ℕ → Option Worker) : ℕ → ℕ → ℕ → Option Worker × ℕ
  | 0, _, idx => (none, idx)
  | left + 1, reading, idx =>
    match workerSocks reading (idx % size) with
    | some sock => (some sock, idx + 1)
    | none => search size workerSocks left (reading + 1) (idx + 1)

/-- One turn of `_master_accept_loop`: the workers that get the connection, and the index.
A failure of `sendmsg` is swallowed, and the connection is closed either way. -/
def handle (size : ℕ) (idx : ℕ) (handling : Handling Worker) : List Worker × ℕ :=
  if size = 0 then ([], idx)
  else
    match search size handling.workerSocks size 0 idx with
    | (some target, idx) => (if handling.accepts target then [target] else [], idx)
    | (none, idx) => ([], idx)

/-- Who gets the connections, one after the other. -/
def received (size : ℕ) (handlings : List (Handling Worker)) : List (List Worker) :=
  (run (handle size) 0 handlings).1

/-- A socket stays in the list and accepts. -/
def Live (size : ℕ) (handling : Handling Worker) : Prop :=
  ∃ slot < size, ∃ sock, (∀ reading, handling.workerSocks reading slot = some sock) ∧
    handling.accepts sock = true

def AllLive (size : ℕ) (handling : Handling Worker) : Prop :=
  (∀ reading, ∀ slot < size, (handling.workerSocks reading slot).isSome) ∧
    ∀ sock, handling.accepts sock = true

/-- What the loop is for. -/
structure Distributes (size : ℕ) (handlings : List (Handling Worker)) : Prop where
  once : List.Forall₂ (fun handling workers => Live size handling → ∃ worker, workers = [worker])
    handlings (received size handlings)
  neverTwice : ∀ workers ∈ received size handlings, workers.length ≤ 1
  roundRobin : 0 < size → (∀ handling ∈ handlings, AllLive size handling) →
    ∀ (position : ℕ) (handling : Handling Worker), handlings[position]? = some handling →
      (received size handlings)[position]? =
        some (handling.workerSocks 0 (position % size)).toList

def FirstAccepts (size idx : ℕ) (handling : Handling Worker) : Prop :=
  ∀ reading < size,
    (∀ earlier < reading, handling.workerSocks earlier ((idx + earlier) % size) = none) →
    ∀ sock, handling.workerSocks reading ((idx + reading) % size) = some sock →
      handling.accepts sock = true

/-! ## The search -/

/-- The search ends at the first socket that it reads, or has read every slot. -/
theorem search_cases (size : ℕ) (workerSocks : ℕ → ℕ → Option Worker) (left reading idx : ℕ) :
    (∃ turn < left,
      (∀ earlier < turn, workerSocks (reading + earlier) ((idx + earlier) % size) = none) ∧
      ∃ sock, workerSocks (reading + turn) ((idx + turn) % size) = some sock ∧
        search size workerSocks left reading idx = (some sock, idx + turn + 1)) ∨
    (∀ turn < left, workerSocks (reading + turn) ((idx + turn) % size) = none) := by
  induction left generalizing reading idx with
  | zero => exact Or.inr fun _ hturn => absurd hturn (Nat.not_lt_zero _)
  | succ left ih =>
    cases hread : workerSocks reading (idx % size) with
    | some sock =>
      refine Or.inl ⟨0, left.succ_pos, fun _ hearlier => absurd hearlier (Nat.not_lt_zero _),
        sock, hread, ?_⟩
      rw [search, hread]
    | none =>
      have hshift : ∀ turn, workerSocks (reading + 1 + turn) ((idx + 1 + turn) % size) =
          workerSocks (reading + (turn + 1)) ((idx + (turn + 1)) % size) := by
        intro turn
        rw [Nat.add_right_comm, Nat.add_right_comm idx]
        rfl
      have hall : ∀ count, (∀ turn < count,
          workerSocks (reading + 1 + turn) ((idx + 1 + turn) % size) = none) →
          ∀ turn < count + 1, workerSocks (reading + turn) ((idx + turn) % size) = none := by
        intro count hnone turn hturn
        cases turn with
        | zero => exact hread
        | succ turn =>
          rw [← hshift]
          exact hnone _ (Nat.lt_of_succ_lt_succ hturn)
      cases ih (reading + 1) (idx + 1) with
      | inr hnone => exact Or.inr (hall _ hnone)
      | inl hfound =>
        have ⟨turn, hturn, hnone, sock, hsock, hsearch⟩ := hfound
        refine Or.inl ⟨turn + 1, Nat.succ_lt_succ hturn, hall _ hnone, sock, ?_, ?_⟩
        · rw [← hshift]
          exact hsock
        · rw [search, hread]
          rw [hsearch, Nat.add_right_comm idx]
          rfl

/-- Every slot is read once. -/
theorem exists_turn {size slot : ℕ} (hslot : slot < size) (idx : ℕ) :
    ∃ turn < size, (idx + turn) % size = slot := by
  have hpos : 0 < size := Nat.zero_lt_of_lt hslot
  refine ⟨(slot + (size - idx % size)) % size, Nat.mod_lt _ hpos, ?_⟩
  have hround : idx % size + (slot + (size - idx % size)) = slot + size := by
    rw [Nat.add_left_comm, Nat.add_sub_cancel' (Nat.mod_lt _ hpos).le]
  rw [Nat.add_mod_mod, ← Nat.mod_add_mod, hround, Nat.add_mod_right, Nat.mod_eq_of_lt hslot]

/-! ## One connection -/

theorem handle_le_one (size idx : ℕ) (handling : Handling Worker) :
    (handle size idx handling).1.length ≤ 1 := by
  rw [handle]
  split
  · exact Nat.zero_le _
  · split
    · split
      · exact le_rfl
      · exact Nat.zero_le _
    · exact Nat.zero_le _

theorem handle_live {size : ℕ} (idx : ℕ) {handling : Handling Worker} (hlive : Live size handling) :
    ∃ turn < size,
      (∀ earlier < turn, handling.workerSocks earlier ((idx + earlier) % size) = none) ∧
      ∃ sock, handling.workerSocks turn ((idx + turn) % size) = some sock ∧
        handle size idx handling =
          (if handling.accepts sock then [sock] else [], idx + turn + 1) := by
  have ⟨slot, hslot, sock, hstays, haccepts⟩ := hlive
  have hsize : size ≠ 0 := (Nat.zero_lt_of_lt hslot).ne'
  have hsearch := search_cases size handling.workerSocks size 0 idx
  simp only [Nat.zero_add] at hsearch
  cases hsearch with
  | inl hfound =>
    have ⟨turn, hturn, hnone, sock, hsock, hfirst⟩ := hfound
    refine ⟨turn, hturn, hnone, sock, hsock, ?_⟩
    rw [handle, if_neg hsize, hfirst]
  | inr hnone =>
    have ⟨turn, hturn, heq⟩ := exists_turn hslot idx
    have hempty := hnone _ hturn
    rw [heq, hstays] at hempty
    cases hempty

theorem handle_once_iff {size : ℕ} (idx : ℕ) (handling : Handling Worker) :
    (Live size handling → ∃ worker, (handle size idx handling).1 = [worker]) ↔
      (Live size handling → FirstAccepts size idx handling) := by
  apply imp_congr_right
  intro hlive
  have ⟨turn, hturn, hnone, sock, hsock, hhandle⟩ := handle_live idx hlive
  rw [hhandle]
  constructor
  · rintro ⟨worker, hworker⟩ reading hreading hearlier sock' hsock'
    have hsame : reading = turn := by
      apply le_antisymm
      · by_contra hlate
        rw [hearlier _ (Nat.lt_of_not_le hlate)] at hsock
        cases hsock
      · by_contra hearly
        rw [hnone _ (Nat.lt_of_not_le hearly)] at hsock'
        cases hsock'
    rw [hsame, hsock] at hsock'
    rw [← Option.some.inj hsock']
    by_contra hrefuses
    rw [if_neg hrefuses] at hworker
    cases hworker
  · intro hfirst
    exact ⟨sock, if_pos (hfirst _ hturn hnone _ hsock)⟩

/-- When all workers are live, the next slot gets the connection. -/
theorem handle_allLive {size : ℕ} (hsize : 0 < size) (idx : ℕ) {handling : Handling Worker}
    (hlive : AllLive size handling) :
    handle size idx handling = ((handling.workerSocks 0 (idx % size)).toList, idx + 1) := by
  have ⟨sock, hsock⟩ :=
    Option.isSome_iff_exists.mp (hlive.1 0 (idx % size) (Nat.mod_lt _ hsize))
  obtain ⟨left, rfl⟩ := Nat.exists_eq_succ_of_ne_zero hsize.ne'
  rw [handle, if_neg hsize.ne', search, hsock]
  dsimp only
  rw [hlive.2]
  rfl

/-! ## All connections -/

theorem handle_run_le_one (size idx : ℕ) (handlings : List (Handling Worker)) :
    ∀ workers ∈ (run (handle size) idx handlings).1, workers.length ≤ 1 := by
  induction handlings generalizing idx with
  | nil => exact fun _ hmem => absurd hmem List.not_mem_nil
  | cons handling handlings ih =>
    rw [run_cons, List.forall_mem_cons]
    exact ⟨handle_le_one _ _ handling, ih _⟩

theorem handle_run_allLive {size : ℕ} (hsize : 0 < size) (idx : ℕ)
    {handlings : List (Handling Worker)} (hlive : ∀ handling ∈ handlings, AllLive size handling)
    {position : ℕ} {handling : Handling Worker} (hposition : handlings[position]? = some handling) :
    (run (handle size) idx handlings).1[position]? =
      some (handling.workerSocks 0 ((idx + position) % size)).toList := by
  induction handlings generalizing idx position with
  | nil => cases hposition
  | cons first handlings ih =>
    rw [List.forall_mem_cons] at hlive
    rw [run_cons, handle_allLive hsize _ hlive.1]
    cases position with
    | zero =>
      cases hposition
      rfl
    | succ position =>
      have hrest := ih (idx + 1) hlive.2 hposition
      rw [Nat.add_right_comm] at hrest
      exact hrest

/-- Connections reach the workers if, whenever some worker is live, the first socket that the
search finds is not one that fails. -/
theorem distributes_iff (size : ℕ) (handlings : List (Handling Worker)) :
    Distributes size handlings ↔ LegalRun (handle size)
        (fun idx handling => Live size handling → FirstAccepts size idx handling) 0 handlings := by
  have honce : List.Forall₂
        (fun handling workers => Live size handling → ∃ worker, workers = [worker])
        handlings (received size handlings) ↔
      LegalRun (handle size)
        (fun idx handling => Live size handling → FirstAccepts size idx handling) 0 handlings := by
    rw [received, ← legalRun_iff_forall₂]
    exact legalRun_congr handle_once_iff 0 handlings
  constructor
  · intro hdistributes
    exact honce.mp hdistributes.once
  · intro hfirst
    refine ⟨honce.mpr hfirst, handle_run_le_one _ 0 handlings, ?_⟩
    intro hsize hlive position handling hposition
    have hrun := handle_run_allLive hsize 0 hlive hposition
    rw [Nat.zero_add] at hrun
    exact hrun

/-- The socket of the first worker is closed but still in the list, the second worker is live. -/
def closedSocket : Handling ℕ where
  workerSocks := fun _ slot => some slot
  accepts := fun sock => sock == 1

theorem connection_dropped :
    ¬ ∀ (size : ℕ) (handlings : List (Handling ℕ)), Distributes size handlings := by
  intro hall
  have honce := (hall 2 [closedSocket]).once
  have hlive : Live 2 closedSocket := ⟨1, Nat.one_lt_two, 1, fun _ => rfl, rfl⟩
  have hreceived : received 2 [closedSocket] = [[]] := by decide
  rw [hreceived, List.forall₂_cons] at honce
  have ⟨worker, hworker⟩ := honce.1 hlive
  cases hworker

end AstraApi.Server.MasterAccept
