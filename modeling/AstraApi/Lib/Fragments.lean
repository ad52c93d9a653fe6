import Mathlib.Data.List.Basic

/-!
# Messages in pieces

A message has a kind and some data, and is sent as one or more pieces.  The
first piece carries the kind, and the last one is marked.  The pieces of a
message are not interleaved with those of another.
-/

namespace AstraApi.Fragments

open List

variable {K α : Type*}

inductive Piece (K α : Type*) where
  | first (kind : K) (last : Bool) (data : List α)
  | next (last : Bool) (data : List α)

/-- The messages that pieces stand for, given the message that has been begun:
`none` when a piece is out of place or the last message is not finished. -/
def reassemble : Option (K × List α) → List (Piece K α) → Option (List (K × List α))
  | none, [] => some []
  | some _, [] => none
  | none, .first kind last data :: pieces =>
    if last then (reassemble none pieces).map fun messages => (kind, data) :: messages
    else reassemble (some (kind, data)) pieces
  | some _, .first _ _ _ :: _ => none
  | none, .next _ _ :: _ => none
  | some (kind, begun), .next last data :: pieces =>
    if last then
      (reassemble none pieces).map fun messages => (kind, begun ++ data) :: messages
    else reassemble (some (kind, begun ++ data)) pieces

/-- The pieces behind the first one. -/
def continuations : List (List α) → List (Piece K α)
  | [] => []
  | data :: rest => .next rest.isEmpty data :: continuations rest

def cut (kind : K) (data : List α) (rest : List (List α)) : List (Piece K α) :=
  .first kind rest.isEmpty data :: continuations rest

theorem reassemble_continuations (kind : K) (begun data : List α) (rest : List (List α))
    (more : List (Piece K α)) :
    reassemble (some (kind, begun)) (continuations (data :: rest) ++ more) =
      (reassemble none more).map fun messages =>
        (kind, begun ++ data ++ rest.flatten) :: messages := by
  induction rest generalizing begun data with
  | nil => simp [continuations, reassemble]
  | cons head rest ih =>
    have hnext := ih (begun ++ data) head
    rw [continuations, cons_append, reassemble, isEmpty_cons, if_neg Bool.false_ne_true,
      hnext, flatten_cons, append_assoc]

theorem reassemble_cut (kind : K) (data : List α) (rest : List (List α))
    (more : List (Piece K α)) :
    reassemble none (cut kind data rest ++ more) =
      (reassemble none more).map fun messages => (kind, data ++ rest.flatten) :: messages := by
  cases rest with
  | nil => simp [cut, continuations, reassemble]
  | cons head rest =>
    rw [cut, cons_append, reassemble, isEmpty_cons, if_neg Bool.false_ne_true,
      reassemble_continuations, flatten_cons, append_assoc]

end AstraApi.Fragments
