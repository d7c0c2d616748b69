/-
# The walk over a dataflow body

`rewrite_verb_calls` reads the body of a `#[dataflow]` function as a token stream. It
looks for calls `node.verb(&PATH, ..)`, reports each with the `#[cfg]` predicates it
stands under, and lets the caller replace the first argument.

A place is the path of indices from the body to a token. The source's tokens carry spans,
and so do the predicates and targets it hands on; here they carry places.

Parsing an argument as an expression, and printing tokens, is the compiler's: `ExprSyntax`.
-/

import EmbassySupervisor.Lib.TokenTree
import Mathlib.Order.Basic

namespace EmbassySupervisor

open TokenTree

abbrev Place := List ℕ

/-! ## What is reported -/

/-- A `#[cfg(..)]` predicate and where its attribute stands. -/
structure Cfg where
  place : Place
  pred : List TokenTree
  deriving DecidableEq

structure VerbCall where
  verb : String
  cfgs : List Cfg
  write : Bool
  target : List TokenTree
  path : String
  /-- Where the call's argument list stands. -/
  place : Place
  deriving DecidableEq

/-- `referenced` is the operand of a stream that parses as `&path` or `&path[..]`, `text`
the stream in print, and `integer` the value of one that parses as an integer literal. -/
structure ExprSyntax where
  referenced : List TokenTree → Option (List TokenTree)
  text : List TokenTree → String
  integer : List TokenTree → Option ℕ

def ExprSyntax.tokensText (syn : ExprSyntax) (ts : List TokenTree) : String :=
  String.ofList ((syn.text ts).toList.filter (· ≠ ' '))

def builtinReads : List String := ["get", "reader", "open", "lease"]

def builtinWrites : List String :=
  ["put", "writer", "beat_put", "beat_writer", "retire", "veto"]

structure VerbTable where
  custom : List (String × Bool) := []

/-- Whether a verb writes, where it is known. -/
def VerbTable.direction (verbs : VerbTable) (ident : String) : Option Bool :=
  if ident ∈ builtinWrites then some true
  else if ident ∈ builtinReads then some false
  else (verbs.custom.find? (·.1 == ident)).map (·.2)

/-! ## What the loop looks at -/

def cfgAttrPredicate : TokenTree → Option (List TokenTree)
  | .group .bracket [.ident i, .group .parenthesis p] => if i = "cfg" then some p else none
  | _ => none

def ownReceiver : Option TokenTree → Bool
  | some (.punct c _) => c ≠ '.' && c ≠ ':'
  | _ => true

/-- The last token of a nested function item. -/
def closesItem : TokenTree → Bool
  | .group .brace _ => true
  | .punct c _ => c = ';'
  | _ => false

/-- Whether a statement goes on behind a brace group. -/
def continues : List TokenTree → Bool
  | .ident i :: _ => i = "else"
  | .punct c _ :: _ => c = '.' || c = '?'
  | _ => false

/-- Whether the loop drops the predicates in force after a token. -/
def endsScope (t : TokenTree) (rest : List TokenTree) : Bool :=
  match t with
  | .group .brace _ => !continues rest
  | .punct c _ => c = ';' || c = ','
  | _ => false

def isComma : TokenTree → Bool
  | .punct c _ => c = ','
  | _ => false

/-- What an iteration of the loop takes: an attribute, the start of a nested function item,
a call, or one token. -/
inductive Head
  | attr
  | item
  | call (verb : String) (write : Bool)
  | token

section Walk

variable (node : String) (verbs : VerbTable)

def headOf (prev : Option TokenTree) : List TokenTree → Head
  | .punct c _ :: .group .bracket _ :: _ => if c = '#' then .attr else .token
  | .ident i :: .ident _ :: _ => if i = "fn" then .item else .token
  | .ident n :: .punct dot _ :: .ident verb :: .group .parenthesis _ :: _ =>
    if ownReceiver prev ∧ n = node ∧ dot = '.' then
      match verbs.direction verb with
      | some write => .call verb write
      | none => .token
    else .token
  | _ => .token

/-- Where the loop stands: `skip n` before a token with `n` of them left to pass over, and
`item` within a nested function item, which is copied to its end. -/
inductive LoopMode
  | skip (n : ℕ)
  | item
  deriving DecidableEq

abbrev LoopMode.read : LoopMode := .skip 0

def LoopMode.afterItem (t : TokenTree) : LoopMode := if closesItem t then .read else .item

/-! ## The walk -/

def firstArgError : String :=
  "the supervisor derives dataflow from the literal path: name " ++
    "the signal directly (`&path::TO_SIGNAL`, `&ARR[i]`)"

variable (syn : ExprSyntax) {σ : Type}
  (onCall : VerbCall → σ → Except String (Option (List TokenTree) × σ))

/-- `walkRest` goes over the arguments from an index on. -/
def rewriteFirstArg (place : Place) (verb : String) (write : Bool) (cfgs : List Cfg)
    (args : List TokenTree) (walkRest : ℕ → σ → Except String (List TokenTree × σ))
    (st : σ) : Except String (List TokenTree × σ) :=
  let split := args.findIdx isComma
  let arg := args.take split
  match syn.referenced arg with
  | none => .error firstArgError
  | some target => do
    let reply ← onCall { verb, cfgs, write, target, path := syn.tokensText target, place } st
    let rest ← walkRest split reply.2
    return (reply.1.getD arg ++ rest.1, rest.2)

mutual

/-- The walk over what a group holds. -/
def rewriteGroup (inherited : List Cfg) (place : Place) (mode : LoopMode) :
    TokenTree → σ → Except String (List TokenTree × σ)
  | .group _ ts, st => rewriteVerbCallsIn inherited place 0 mode none [] [] ts st
  | _, st => .ok ([], st)

def rewriteVerbCallsIn (inherited : List Cfg) (here : Place) (i : ℕ) (mode : LoopMode)
    (prev : Option TokenTree) (pending current : List Cfg) :
    List TokenTree → σ → Except String (List TokenTree × σ)
  | [], st => .ok ([], st)
  | t :: rest, st =>
    match mode with
    | .skip (n + 1) => rewriteVerbCallsIn inherited here (i + 1) (.skip n) none [] [] rest st
    | .item => do
      let r ← rewriteVerbCallsIn inherited here (i + 1) (.afterItem t) (some t) []
        (if closesItem t then [] else current) rest st
      return (t :: r.1, r.2)
    | .skip 0 =>
      match headOf node verbs prev (t :: rest), rest with
      | .attr, g :: rest => do
        let pending := pending ++ ((cfgAttrPredicate g).map (Cfg.mk (here ++ [i]))).toList
        let r ← rewriteVerbCallsIn inherited here (i + 2) .read (some g) pending current rest st
        return (t :: g :: r.1, r.2)
      | .item, rest => do
        let r ← rewriteVerbCallsIn inherited here (i + 1) .item (some t) []
          (current ++ pending) rest st
        return (t :: r.1, r.2)
      | .call verb write, dot :: name :: g :: rest => do
        let current := current ++ pending
        let cfgs := inherited ++ current
        let place := here ++ [i + 3]
        let new ← rewriteFirstArg syn onCall place verb write cfgs g.stream
          (fun split => rewriteGroup cfgs place (.skip split) g) st
        let r ← rewriteVerbCallsIn inherited here (i + 4) .read (some g) [] current rest new.2
        return (t :: dot :: name :: .group .parenthesis new.1 :: r.1, r.2)
      | _, rest => do
        let current := current ++ pending
        let new ← rewriteGroup (inherited ++ current) (here ++ [i]) .read t st
        let r ← rewriteVerbCallsIn inherited here (i + 1) .read (some t) []
          (if endsScope t rest then [] else current) rest new.2
        return (t.withStream new.1 :: r.1, r.2)

end

def rewriteVerbCalls (body : List TokenTree) (st : σ) : Except String (List TokenTree × σ) :=
  rewriteVerbCallsIn node verbs syn onCall [] [] 0 .read none [] [] body st

/-! ## Heads

What the tokens are that the loop takes together.
-/

variable {node verbs}

theorem headOf_attr {prev : Option TokenTree} {t : TokenTree} {rest : List TokenTree}
    (h : headOf node verbs prev (t :: rest) = .attr) :
    ∃ s inner tail, t = .punct '#' s ∧ rest = .group .bracket inner :: tail := by
  unfold headOf at h
  split at h <;> rename_i heq
  · obtain ⟨rfl, rfl⟩ := List.cons.inj heq
    split at h
    · next hc => exact ⟨_, _, _, by rw [hc], rfl⟩
    · cases h
  · split at h <;> cases h
  · split at h
    · split at h <;> cases h
    · cases h
  · cases h

theorem headOf_item {prev : Option TokenTree} {t : TokenTree} {rest : List TokenTree}
    (h : headOf node verbs prev (t :: rest) = .item) :
    t = .ident "fn" ∧ ∃ name tail, rest = .ident name :: tail := by
  unfold headOf at h
  split at h <;> rename_i heq
  · split at h <;> cases h
  · obtain ⟨rfl, rfl⟩ := List.cons.inj heq
    split at h
    · next hfn => exact ⟨by rw [hfn], _, _, rfl⟩
    · cases h
  · split at h
    · split at h <;> cases h
    · cases h
  · cases h

theorem headOf_call {prev : Option TokenTree} {t : TokenTree} {rest : List TokenTree}
    {verb : String} {write : Bool} (h : headOf node verbs prev (t :: rest) = .call verb write) :
    (ownReceiver prev = true ∧ t = .ident node ∧ verbs.direction verb = some write) ∧
      ∃ s args tail, rest = .punct '.' s :: .ident verb :: .group .parenthesis args :: tail := by
  unfold headOf at h
  split at h <;> rename_i heq
  · split at h <;> cases h
  · split at h <;> cases h
  · obtain ⟨rfl, rfl⟩ := List.cons.inj heq
    split at h
    · next hcall =>
        obtain ⟨hown, rfl, rfl⟩ := hcall
        split at h
        · next hdir =>
            obtain ⟨rfl, rfl⟩ := Head.call.inj h
            exact ⟨⟨hown, rfl, hdir⟩, _, _, _, rfl⟩
        · cases h
    · cases h
  · cases h

/-! ## The pieces of a level -/

variable (node verbs)

/-- What one iteration takes from a level. -/
inductive Piece
  | attr (hash g : TokenTree)
  | item (t : TokenTree)
  | call (verb : String) (write : Bool) (receiver dot name g : TokenTree)
  | token (t : TokenTree) (ends : Bool)
  deriving DecidableEq

namespace Piece

/-- Whether the predicates in force are dropped after a piece. -/
def ends : Piece → Bool
  | .attr .. => false
  | .item t => closesItem t
  | .call .. => false
  | .token _ ends => ends

/-- The group that a piece is walked into, by its distance from where the piece starts, and
the mode in which its stream is entered. -/
def inside : Piece → Option (ℕ × LoopMode × List TokenTree)
  | .attr .. => none
  | .item _ => none
  | .call _ _ _ _ _ g => some (3, .skip (g.stream.findIdx isComma), g.stream)
  | .token t _ => some (0, .read, t.stream)

end Piece

/-- The pieces of a level from a token on, with the index of each. -/
def pieces (i : ℕ) (mode : LoopMode) (prev : Option TokenTree) :
    List TokenTree → List (ℕ × Piece)
  | [] => []
  | t :: rest =>
    match mode with
    | .skip (n + 1) => pieces (i + 1) (.skip n) none rest
    | .item => (i, .item t) :: pieces (i + 1) (.afterItem t) (some t) rest
    | .skip 0 =>
      match headOf node verbs prev (t :: rest), rest with
      | .attr, g :: rest => (i, .attr t g) :: pieces (i + 2) .read (some g) rest
      | .item, rest => (i, .item t) :: pieces (i + 1) .item (some t) rest
      | .call verb write, dot :: name :: g :: rest =>
        (i, .call verb write t dot name g) :: pieces (i + 4) .read (some g) rest
      | _, rest => (i, .token t (endsScope t rest)) :: pieces (i + 1) .read (some t) rest

section Equations

variable {node verbs} {i : ℕ} {prev : Option TokenTree} {t g : TokenTree} {rest : List TokenTree}

theorem pieces_attr (h : headOf node verbs prev (t :: g :: rest) = .attr) :
    pieces node verbs i .read prev (t :: g :: rest) =
      (i, .attr t g) :: pieces node verbs (i + 2) .read (some g) rest := by
  simp only [pieces, h]

theorem pieces_item (h : headOf node verbs prev (t :: rest) = .item) :
    pieces node verbs i .read prev (t :: rest) =
      (i, .item t) :: pieces node verbs (i + 1) .item (some t) rest := by
  simp only [pieces, h]

theorem pieces_call {verb : String} {write : Bool} {dot name : TokenTree}
    (h : headOf node verbs prev (t :: dot :: name :: g :: rest) = .call verb write) :
    pieces node verbs i .read prev (t :: dot :: name :: g :: rest) =
      (i, .call verb write t dot name g) :: pieces node verbs (i + 4) .read (some g) rest := by
  rw [pieces.eq_def]
  simp only [h]

theorem pieces_token (h : headOf node verbs prev (t :: rest) = .token) :
    pieces node verbs i .read prev (t :: rest) =
      (i, .token t (endsScope t rest)) :: pieces node verbs (i + 1) .read (some t) rest := by
  rw [pieces.eq_def]
  simp only [h]

end Equations

/-- Induction along a level, by what the loop takes. -/
@[elab_as_elim]
theorem level_induction {motive : ℕ → LoopMode → Option TokenTree → List TokenTree → Prop}
    (nil : ∀ i mode prev, motive i mode prev [])
    (skip : ∀ i n prev t rest, motive (i + 1) (.skip n) none rest →
      motive i (.skip (n + 1)) prev (t :: rest))
    (inItem : ∀ i prev t rest, motive (i + 1) (.afterItem t) (some t) rest →
      motive i .item prev (t :: rest))
    (attr : ∀ i prev t g rest, headOf node verbs prev (t :: g :: rest) = .attr →
      motive (i + 2) .read (some g) rest → motive i .read prev (t :: g :: rest))
    (item : ∀ i prev t rest, headOf node verbs prev (t :: rest) = .item →
      motive (i + 1) .item (some t) rest → motive i .read prev (t :: rest))
    (call : ∀ i prev t verb write dot name g rest,
      headOf node verbs prev (t :: dot :: name :: g :: rest) = .call verb write →
      motive (i + 4) .read (some g) rest → motive i .read prev (t :: dot :: name :: g :: rest))
    (token : ∀ i prev t rest, headOf node verbs prev (t :: rest) = .token →
      motive (i + 1) .read (some t) rest → motive i .read prev (t :: rest))
    (i : ℕ) (mode : LoopMode) (prev : Option TokenTree) (ts : List TokenTree) :
    motive i mode prev ts := by
  induction i, mode, prev, ts using pieces.induct node verbs with
  | case1 i mode prev => exact nil i mode prev
  | case2 i prev t rest n ih => exact skip i n prev t rest ih
  | case3 i prev t rest ih => exact inItem i prev t rest ih
  | case4 i prev t g rest hhead ih => exact attr i prev t g rest hhead ih
  | case5 i prev t rest hhead ih => exact item i prev t rest hhead ih
  | case6 i prev t verb write dot name g rest hhead ih =>
      exact call i prev t verb write dot name g rest hhead ih
  | case7 i prev t rest hattr hitem hcall ih =>
      refine token i prev t rest ?_ ih
      cases hhead : headOf node verbs prev (t :: rest) with
      | attr =>
          obtain ⟨s, inner, tail, -, rfl⟩ := headOf_attr hhead
          exact (hattr _ _ hhead rfl).elim
      | item => exact (hitem hhead).elim
      | call verb write =>
          obtain ⟨-, s, args, tail, rfl⟩ := headOf_call hhead
          exact (hcall _ _ _ _ _ _ hhead rfl).elim
      | token => rfl

/-- Pieces with the predicates in force at each. -/
def withCfgs (inherited : List Cfg) (here : Place) :
    (pending current : List Cfg) → List (ℕ × Piece) → List (ℕ × Piece × List Cfg)
  | _, _, [] => []
  | pending, current, (k, .attr t g) :: ps =>
    (k, .attr t g, []) :: withCfgs inherited here
      (pending ++ ((cfgAttrPredicate g).map (Cfg.mk (here ++ [k]))).toList) current ps
  | pending, current, (k, pc) :: ps =>
    (k, pc, inherited ++ (current ++ pending)) :: withCfgs inherited here []
      (if pc.ends then [] else current ++ pending) ps

/-- The walk of one piece. -/
def rewritePiece (here : Place) (k : ℕ) (cfgs : List Cfg) (pc : Piece) (st : σ) :
    Except String (List TokenTree × σ) :=
  match pc with
  | .attr t g => .ok ([t, g], st)
  | .item t => .ok ([t], st)
  | .call verb write t dot name g => do
    let new ← rewriteFirstArg syn onCall (here ++ [k + 3]) verb write cfgs g.stream
      (fun split => rewriteGroup node verbs syn onCall cfgs (here ++ [k + 3]) (.skip split) g) st
    return ([t, dot, name, .group .parenthesis new.1], new.2)
  | .token t _ => do
    let new ← rewriteGroup node verbs syn onCall cfgs (here ++ [k]) .read t st
    return ([t.withStream new.1], new.2)

def rewritePieces (here : Place) :
    List (ℕ × Piece × List Cfg) → σ → Except String (List TokenTree × σ)
  | [], st => .ok ([], st)
  | (k, pc, cfgs) :: ps, st => do
    let new ← rewritePiece node verbs syn onCall here k cfgs pc st
    let r ← rewritePieces here ps new.2
    return (new.1 ++ r.1, r.2)

/-- The loop over a level walks its pieces one after the other. -/
theorem rewriteVerbCallsIn_eq (inherited : List Cfg) (here : Place) (i : ℕ) (mode : LoopMode)
    (prev : Option TokenTree) (pending current : List Cfg) (ts : List TokenTree) (st : σ)
    (hpending : mode ≠ .read → pending = [])
    (hcurrent : mode ≠ .read → mode ≠ .item → current = []) :
    rewriteVerbCallsIn node verbs syn onCall inherited here i mode prev pending current ts st =
      rewritePieces node verbs syn onCall here
        (withCfgs inherited here pending current (pieces node verbs i mode prev ts)) st := by
  induction i, mode, prev, ts using level_induction node verbs generalizing pending current st with
  | nil i mode prev => rfl
  | skip i n prev t rest ih =>
      obtain rfl : pending = [] := hpending (by simp)
      obtain rfl : current = [] := hcurrent (by simp) (by simp)
      simp only [rewriteVerbCallsIn, pieces]
      exact ih [] [] st (fun _ => rfl) (fun _ _ => rfl)
  | inItem i prev t rest ih =>
      obtain rfl : pending = [] := hpending (by simp)
      have hafter : LoopMode.afterItem t ≠ .read → LoopMode.afterItem t ≠ .item →
          (if closesItem t then [] else current) = [] := by
        unfold LoopMode.afterItem
        split <;> simp
      simp only [rewriteVerbCallsIn, pieces, withCfgs, rewritePieces, rewritePiece, Piece.ends]
      rw [ih [] _ st (fun _ => rfl) hafter, List.append_nil]
      rfl
  | attr i prev t g rest hhead ih =>
      simp only [rewriteVerbCallsIn, pieces, withCfgs, rewritePieces, rewritePiece, hhead]
      rw [ih _ current st (by simp) (by simp)]
      rfl
  | item i prev t rest hhead ih =>
      obtain ⟨rfl, -⟩ := headOf_item hhead
      rw [pieces_item hhead]
      simp only [rewriteVerbCallsIn, withCfgs, rewritePieces, rewritePiece, hhead]
      rw [ih [] _ st (by simp) (by simp)]
      rfl
  | call i prev t verb write dot name g rest hhead ih =>
      rw [pieces_call hhead]
      rw [rewriteVerbCallsIn.eq_def]
      simp only [withCfgs, rewritePieces, rewritePiece, hhead]
      rw [bind_assoc]
      congr
      funext new
      rw [ih [] _ new.2 (by simp) (by simp)]
      rfl
  | token i prev t rest hhead ih =>
      rw [pieces_token hhead]
      rw [rewriteVerbCallsIn.eq_def]
      simp only [withCfgs, rewritePieces, rewritePiece, hhead]
      rw [bind_assoc]
      congr
      funext new
      rw [ih [] _ new.2 (by simp) (by simp)]
      rfl

end Walk

end EmbassySupervisor
