/-
# Token trees

Token streams as a macro sees them: identifiers, punctuation characters with their
spacing, literals, and delimited groups holding streams of their own. Positions in a file
are left out; two trees are the same when they print the same.

A `Level` of a stream is the stream itself or what one of its groups holds, at any depth.
-/

import Mathlib.Data.List.Basic

inductive Delimiter
  | parenthesis
  | brace
  | bracket
  | none
  deriving DecidableEq

/-- Whether a character stands directly before the next one. -/
inductive Spacing
  | alone
  | joint
  deriving DecidableEq

inductive TokenTree
  | group (delimiter : Delimiter) (stream : List TokenTree)
  | ident (name : String)
  | punct (char : Char) (spacing : Spacing)
  | literal (text : String)

namespace TokenTree

mutual

def decEq : (a b : TokenTree) → Decidable (a = b)
  | .group d ts, .group d' ts' =>
    match decEqStream ts ts' with
    | .isTrue h => decidable_of_iff (d = d') (by simp [h])
    | .isFalse h => .isFalse (by simp [h])
  | .ident i, .ident j => decidable_of_iff (i = j) (by simp)
  | .punct c s, .punct c' s' => decidable_of_iff (c = c' ∧ s = s') (by simp)
  | .literal i, .literal j => decidable_of_iff (i = j) (by simp)
  | .group .., .ident _ | .group .., .punct .. | .group .., .literal _
  | .ident _, .group .. | .ident _, .punct .. | .ident _, .literal _
  | .punct .., .group .. | .punct .., .ident _ | .punct .., .literal _
  | .literal _, .group .. | .literal _, .ident _ | .literal _, .punct .. => .isFalse nofun

def decEqStream : (as bs : List TokenTree) → Decidable (as = bs)
  | [], [] => .isTrue rfl
  | [], _ :: _ | _ :: _, [] => .isFalse nofun
  | a :: as, b :: bs =>
    match decEq a b, decEqStream as bs with
    | .isTrue h, .isTrue h' => .isTrue (by rw [h, h'])
    | .isFalse h, _ => .isFalse (by simp [h])
    | _, .isFalse h => .isFalse (by simp [h])

end

instance : DecidableEq TokenTree := decEq

def isGroup : TokenTree → Bool
  | .group .. => true
  | _ => false

/-- What a group holds, and nothing for other trees. -/
def stream : TokenTree → List TokenTree
  | .group _ ts => ts
  | _ => []

theorem sizeOf_stream_le (t : TokenTree) : sizeOf t.stream ≤ sizeOf t := by
  cases t with
  | group d ts => simp [stream]
  | ident i => simp [stream]
  | punct c s => simp [stream]; omega
  | literal l => simp [stream]

/-- A group with other contents; other trees stay. -/
def withStream (t : TokenTree) (ts : List TokenTree) : TokenTree :=
  match t with
  | .group d _ => .group d ts
  | t => t

/-- Induction over a stream and, where it meets a group, what the group holds. -/
@[elab_as_elim]
theorem stream_induction {motive : List TokenTree → Prop} (nil : motive [])
    (group : ∀ d ts rest, motive ts → motive rest → motive (.group d ts :: rest))
    (leaf : ∀ t rest, t.isGroup = false → motive rest → motive (t :: rest)) :
    ∀ ts, motive ts
  | [] => nil
  | .group d ts :: rest =>
    group d ts rest (stream_induction nil group leaf ts) (stream_induction nil group leaf rest)
  | .ident i :: rest => leaf (.ident i) rest rfl (stream_induction nil group leaf rest)
  | .punct c s :: rest => leaf (.punct c s) rest rfl (stream_induction nil group leaf rest)
  | .literal l :: rest => leaf (.literal l) rest rfl (stream_induction nil group leaf rest)

/-- The levels of a stream: itself, and what the groups of its levels hold. -/
inductive Level (ts : List TokenTree) : List TokenTree → Prop
  | top : Level ts ts
  | inner {s inner : List TokenTree} {d : Delimiter} :
      Level ts s → .group d inner ∈ s → Level ts inner

end TokenTree
