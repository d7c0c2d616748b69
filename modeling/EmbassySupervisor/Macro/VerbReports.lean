/-
# What the walk reports

The walk enters a level for the body and for each group it goes into. `Enters` is that,
and `Recognises` where calls stand in the levels entered; neither mentions the callback,
the parser or the predicates. A run that succeeds reports one call for each recognised
place, with the predicates in force at its piece, and its output is the body with the
accepted first arguments replaced (`rewriteVerbCalls_traced`).
-/

import EmbassySupervisor.Macro.VerbWalk

namespace EmbassySupervisor

open TokenTree

/-! ## Levels -/

/-- A level as the walk enters it. -/
structure LevelEntry where
  here : Place := []
  inherited : List Cfg := []
  mode : LoopMode := .read
  stream : List TokenTree

section Levels

variable (node : String) (verbs : VerbTable)

def LevelEntry.pieces (l : LevelEntry) : List (ℕ × Piece × List Cfg) :=
  withCfgs l.inherited l.here [] [] (EmbassySupervisor.pieces node verbs 0 l.mode none l.stream)

/-- The walk of the one level comes to the other. -/
inductive Enters : LevelEntry → LevelEntry → Prop
  | self (l : LevelEntry) : Enters l l
  | inside {l l' : LevelEntry} {k offset : ℕ} {pc : Piece} {cfgs : List Cfg} {mode : LoopMode}
      {ts : List TokenTree} : (k, pc, cfgs) ∈ l.pieces node verbs →
      pc.inside = some (offset, mode, ts) →
      Enters ⟨l.here ++ [k + offset], cfgs, mode, ts⟩ l' → Enters l l'

/-- A call is recognised at a place. -/
def Recognises (l : LevelEntry) (place : Place) : Prop :=
  ∃ l' k verb write t dot name g cfgs, Enters node verbs l l' ∧
    (k, .call verb write t dot name g, cfgs) ∈ l'.pieces node verbs ∧ place = l'.here ++ [k + 3]

/-- A call of a level and what the callback is told of it. -/
def Reports (syn : ExprSyntax) (l : LevelEntry) (call : VerbCall) : Prop :=
  ∃ l' k verb write t dot name g cfgs target, Enters node verbs l l' ∧
    (k, .call verb write t dot name g, cfgs) ∈ l'.pieces node verbs ∧
    syn.referenced (g.stream.take (g.stream.findIdx isComma)) = some target ∧
    call = { verb, cfgs, write, target, path := syn.tokensText target,
             place := l'.here ++ [k + 3] }

end Levels

/-- The one place comes before the other in the print of the body. -/
abbrev Earlier (p q : Place) : Prop := List.Lex (· < ·) p q

/-- A place at or below one of the tokens from an index of a level up to another. -/
abbrev Inside (here : Place) (start stop : ℕ) (p : Place) : Prop :=
  ∃ j q, p = here ++ j :: q ∧ start ≤ j ∧ j < stop

/-! ## Replacing first arguments -/

mutual

def replaceIn (replies : Place → Option (List TokenTree)) (place : Place) :
    TokenTree → TokenTree
  | .group d ts =>
    match replies place with
    | some r => .group d (r ++ replaceFirstArgs replies place 0 (ts.findIdx isComma) ts)
    | none => .group d (replaceFirstArgs replies place 0 0 ts)
  | t => t

/-- A stream with the first arguments of the argument lists at some places replaced, and
nothing else; the first `skip` tokens are left out. -/
def replaceFirstArgs (replies : Place → Option (List TokenTree)) (here : Place) (i : ℕ) :
    (skip : ℕ) → List TokenTree → List TokenTree
  | _, [] => []
  | n + 1, _ :: rest => replaceFirstArgs replies here (i + 1) n rest
  | 0, t :: rest =>
    replaceIn replies (here ++ [i]) t :: replaceFirstArgs replies here (i + 1) 0 rest

end

/-! ## The log -/

abbrev CallLog := List (VerbCall × Option (List TokenTree))

/-- A callback that also writes down what it was told and what it answered. -/
def logged {σ : Type} (onCall : VerbCall → σ → Except String (Option (List TokenTree) × σ))
    (call : VerbCall) (st : σ × CallLog) :
    Except String (Option (List TokenTree) × (σ × CallLog)) := do
  let reply ← onCall call st.1
  return (reply.1, (reply.2, st.2 ++ [(call, reply.1)]))

/-- The replacement that was given for the call at a place. -/
def repliesOf (log : CallLog) (place : Place) : Option (List TokenTree) :=
  (log.find? (·.1.place = place)).bind (·.2)

/-! ## Pieces -/

namespace LoopMode

/-- How many tokens are still to pass over. -/
def skipped : LoopMode → ℕ
  | .skip n => n
  | .item => 0

@[simp] theorem skipped_skip (n : ℕ) : (LoopMode.skip n).skipped = n := rfl

@[simp] theorem skipped_item : LoopMode.item.skipped = 0 := rfl

@[simp] theorem skipped_afterItem (t : TokenTree) : (LoopMode.afterItem t).skipped = 0 := by
  unfold afterItem
  split <;> rfl

end LoopMode

namespace Piece

def tokens : Piece → List TokenTree
  | .attr t g => [t, g]
  | .item t => [t]
  | .call _ _ t dot name g => [t, dot, name, g]
  | .token t _ => [t]

/-- The leading tokens of a call are no groups, and its last one is its argument list. -/
def Shaped : Piece → Prop
  | .attr .. => True
  | .item _ => True
  | .call _ _ t dot name g =>
    t.isGroup = false ∧ dot.isGroup = false ∧ name.isGroup = false ∧
      ∃ args, g = .group .parenthesis args
  | .token .. => True

theorem offset_lt {pc : Piece} {offset : ℕ} {mode : LoopMode} {ts : List TokenTree}
    (h : pc.inside = some (offset, mode, ts)) : offset < pc.tokens.length := by
  cases pc with
  | attr t g => cases h
  | item t => cases h
  | call verb write t dot name g => cases h; simp [tokens]
  | token t ends => cases h; simp [tokens]

theorem mem_of_inside {pc : Piece} {offset : ℕ} {mode : LoopMode} {ts : List TokenTree}
    (h : pc.inside = some (offset, mode, ts)) : ∃ t ∈ pc.tokens, ts = t.stream := by
  cases pc with
  | attr t g => cases h
  | item t => cases h
  | call verb write t dot name g => cases h; exact ⟨g, by simp [tokens], rfl⟩
  | token t ends => cases h; exact ⟨t, by simp [tokens], rfl⟩

end Piece

/-- Pieces that make up a stream from an index on. -/
inductive Covers : ℕ → List (ℕ × Piece) → List TokenTree → Prop
  | nil (i : ℕ) : Covers i [] []
  | cons {i : ℕ} {pc : Piece} {ps : List (ℕ × Piece)} {rest : List TokenTree} :
      pc.Shaped → Covers (i + pc.tokens.length) ps rest →
      Covers i ((i, pc) :: ps) (pc.tokens ++ rest)

section Pieces

variable {node : String} {verbs : VerbTable}

/-- The pieces of a level make it up, but for the tokens passed over. -/
theorem pieces_covers (i : ℕ) (mode : LoopMode) (prev : Option TokenTree)
    (ts : List TokenTree) :
    Covers (i + mode.skipped) (pieces node verbs i mode prev ts) (ts.drop mode.skipped) := by
  induction i, mode, prev, ts using level_induction node verbs with
  | nil i mode prev => simpa [pieces] using Covers.nil (i + mode.skipped)
  | skip i n prev t rest ih =>
      have hi : i + 1 + n = i + (n + 1) := by omega
      simpa [pieces, hi] using ih
  | inItem i prev t rest ih =>
      simp only [pieces]
      exact .cons (show (Piece.item t).Shaped from trivial) (by simpa [Piece.tokens] using ih)
  | attr i prev t g rest hhead ih =>
      rw [pieces_attr hhead]
      exact .cons (show (Piece.attr t g).Shaped from trivial) (by simpa [Piece.tokens] using ih)
  | item i prev t rest hhead ih =>
      rw [pieces_item hhead]
      exact .cons (show (Piece.item t).Shaped from trivial) (by simpa [Piece.tokens] using ih)
  | call i prev t verb write dot name g rest hhead ih =>
      rw [pieces_call hhead]
      obtain ⟨⟨-, rfl, -⟩, s, args, tail, hrest⟩ := headOf_call hhead
      simp only [List.cons.injEq] at hrest
      obtain ⟨rfl, rfl, rfl, -⟩ := hrest
      exact .cons (show (Piece.call ..).Shaped from ⟨rfl, rfl, rfl, args, rfl⟩)
        (by simpa [Piece.tokens] using ih)
  | token i prev t rest hhead ih =>
      rw [pieces_token hhead]
      exact .cons (show (Piece.token t _).Shaped from trivial) (by simpa [Piece.tokens] using ih)

namespace Covers

variable {i : ℕ} {ps : List (ℕ × Piece)} {ts : List TokenTree}

theorem of_mem (h : Covers i ps ts) {k : ℕ} {pc : Piece} (hmem : (k, pc) ∈ ps) :
    i ≤ k ∧ pc.Shaped ∧ pc.tokens ⊆ ts := by
  induction h with
  | nil i => cases hmem
  | cons hshaped _ ih =>
      rcases List.mem_cons.mp hmem with heq | hmem
      · obtain ⟨rfl, rfl⟩ := Prod.mk.inj heq
        exact ⟨Nat.le_refl _, hshaped, List.subset_append_left _ _⟩
      · obtain ⟨hle, hshaped, hsub⟩ := ih hmem
        exact ⟨by omega, hshaped, List.subset_append_of_subset_right _ hsub⟩

/-- Each piece ends before the next one starts. -/
theorem sorted (h : Covers i ps ts) :
    ps.Pairwise fun x y => x.1 + x.2.tokens.length ≤ y.1 := by
  induction h with
  | nil i => exact .nil
  | cons _ hrest ih => exact .cons (fun y hy => (hrest.of_mem hy).1) ih

end Covers

theorem map_withCfgs (inherited : List Cfg) (here : Place) (pending current : List Cfg)
    (ps : List (ℕ × Piece)) :
    (withCfgs inherited here pending current ps).map (fun x => (x.1, x.2.1)) = ps := by
  induction ps generalizing pending current with
  | nil => rfl
  | cons p ps ih =>
      obtain ⟨k, pc⟩ := p
      cases pc <;> simp [withCfgs, ih]

theorem mem_of_withCfgs {inherited : List Cfg} {here : Place} {pending current : List Cfg}
    {ps : List (ℕ × Piece)} {k : ℕ} {pc : Piece} {cfgs : List Cfg}
    (h : (k, pc, cfgs) ∈ withCfgs inherited here pending current ps) : (k, pc) ∈ ps :=
  map_withCfgs inherited here pending current ps ▸ List.mem_map_of_mem h

namespace LevelEntry

theorem covers (l : LevelEntry) : Covers (0 + l.mode.skipped)
    ((l.pieces node verbs).map fun x => (x.1, x.2.1)) (l.stream.drop l.mode.skipped) :=
  (map_withCfgs l.inherited l.here [] [] _).symm ▸ pieces_covers 0 l.mode none l.stream

theorem mem_pieces {l : LevelEntry} {k : ℕ} {pc : Piece} {cfgs : List Cfg}
    (h : (k, pc, cfgs) ∈ l.pieces node verbs) :
    l.mode.skipped ≤ k ∧ pc.Shaped ∧ pc.tokens ⊆ l.stream := by
  obtain ⟨hle, hshaped, hsub⟩ := (pieces_covers 0 l.mode none l.stream).of_mem (mem_of_withCfgs h)
  exact ⟨by omega, hshaped, List.Subset.trans hsub (List.drop_subset _ _)⟩

theorem sizeOf_inside {l : LevelEntry} {k offset : ℕ} {pc : Piece} {cfgs : List Cfg}
    {mode : LoopMode} {ts : List TokenTree} (hmem : (k, pc, cfgs) ∈ l.pieces node verbs)
    (hinside : pc.inside = some (offset, mode, ts)) : sizeOf ts < sizeOf l.stream := by
  obtain ⟨t, ht, rfl⟩ := Piece.mem_of_inside hinside
  have hlt : sizeOf t < sizeOf l.stream := List.sizeOf_lt_of_mem ((mem_pieces hmem).2.2 ht)
  exact Nat.lt_of_le_of_lt t.sizeOf_stream_le hlt

end LevelEntry

/-- Induction over levels, from what the walk goes into to the level itself. -/
@[elab_as_elim]
theorem levels_induction (node : String) (verbs : VerbTable) {motive : LevelEntry → Prop}
    (level : ∀ l, (∀ k pc cfgs offset mode ts, (k, pc, cfgs) ∈ l.pieces node verbs →
      pc.inside = some (offset, mode, ts) → motive ⟨l.here ++ [k + offset], cfgs, mode, ts⟩) →
      motive l) (l : LevelEntry) : motive l := by
  induction hsize : sizeOf l.stream using Nat.strongRecOn generalizing l with
  | _ size ih =>
      refine level l fun k pc cfgs offset mode ts hmem hinside => ?_
      exact ih _ (hsize ▸ LevelEntry.sizeOf_inside hmem hinside) _ rfl

/-! ## Places of reports -/

variable {syn : ExprSyntax}

/-- The calls that come from one piece of a level. -/
def PieceReports (node : String) (verbs : VerbTable) (syn : ExprSyntax) (here : Place) (k : ℕ)
    (pc : Piece) (cfgs : List Cfg) (call : VerbCall) : Prop :=
  (∃ verb write t dot name g target, pc = .call verb write t dot name g ∧
    syn.referenced (g.stream.take (g.stream.findIdx isComma)) = some target ∧
    call = { verb, cfgs, write, target, path := syn.tokensText target, place := here ++ [k + 3] }) ∨
  ∃ offset mode ts, pc.inside = some (offset, mode, ts) ∧
    Reports node verbs syn ⟨here ++ [k + offset], cfgs, mode, ts⟩ call

theorem reports_iff {l : LevelEntry} {call : VerbCall} :
    Reports node verbs syn l call ↔ ∃ k pc cfgs, (k, pc, cfgs) ∈ l.pieces node verbs ∧
      PieceReports node verbs syn l.here k pc cfgs call := by
  constructor
  · rintro ⟨l', k, verb, write, t, dot, name, g, cfgs, target, hent, hmem, htarget, hcall⟩
    cases hent with
    | self =>
        exact ⟨k, _, cfgs, hmem, .inl ⟨verb, write, t, dot, name, g, target, rfl, htarget, hcall⟩⟩
    | inside hmem' hinside hent =>
        exact ⟨_, _, _, hmem', .inr ⟨_, _, _, hinside, l', k, verb, write, t, dot, name, g, cfgs,
          target, hent, hmem, htarget, hcall⟩⟩
  · rintro ⟨k, pc, cfgs, hmem, ⟨verb, write, t, dot, name, g, target, rfl, htarget, hcall⟩ | h⟩
    · exact ⟨l, k, verb, write, t, dot, name, g, cfgs, target, .self l, hmem, htarget, hcall⟩
    · obtain ⟨offset, mode, ts, hinside, l', k', verb, write, t, dot, name, g, cfgs', target, hent,
        hmem', htarget, hcall⟩ := h
      exact ⟨l', k', verb, write, t, dot, name, g, cfgs', target, .inside hmem hinside hent, hmem',
        htarget, hcall⟩

/-- A level entered stands at or below the level it is entered from. -/
theorem Enters.here_prefix {l l' : LevelEntry} (h : Enters node verbs l l') :
    ∃ q, l'.here = l.here ++ q := by
  induction h with
  | self l => exact ⟨[], by simp⟩
  | inside _ _ _ ih =>
      obtain ⟨q, hq⟩ := ih
      exact ⟨_, by rw [hq, List.append_assoc]⟩

theorem Reports.place {l : LevelEntry} {call : VerbCall} (h : Reports node verbs syn l call) :
    ∃ q, call.place = l.here ++ q ∧ q ≠ [] := by
  obtain ⟨l', k, _, _, _, _, _, _, _, _, hent, -, -, rfl⟩ := h
  obtain ⟨q, hq⟩ := hent.here_prefix
  exact ⟨q ++ [k + 3], by simp [hq], by simp⟩

/-- What comes from a piece stands among its tokens. -/
theorem PieceReports.place {here : Place} {k : ℕ} {pc : Piece} {cfgs : List Cfg}
    {call : VerbCall} (h : PieceReports node verbs syn here k pc cfgs call) :
    ∃ j q, call.place = here ++ j :: q ∧ k ≤ j ∧ j < k + pc.tokens.length := by
  rcases h with ⟨verb, write, t, dot, name, g, target, rfl, -, rfl⟩ | ⟨offset, mode, ts, hinside, h⟩
  · exact ⟨k + 3, [], rfl, by omega, by simp [Piece.tokens]⟩
  · obtain ⟨q, hq, -⟩ := h.place
    have hoffset := Piece.offset_lt hinside
    exact ⟨k + offset, q, by simp [hq], by omega, by omega⟩

/-- Two pieces of a level that share a token are one. -/
theorem LevelEntry.piece_unique {l : LevelEntry} {k k' j : ℕ} {pc pc' : Piece}
    {cfgs cfgs' : List Cfg} (h : (k, pc, cfgs) ∈ l.pieces node verbs)
    (h' : (k', pc', cfgs') ∈ l.pieces node verbs) (hk : k ≤ j ∧ j < k + pc.tokens.length)
    (hk' : k' ≤ j ∧ j < k' + pc'.tokens.length) : (k, pc, cfgs) = (k', pc', cfgs') := by
  have hsorted : (l.pieces node verbs).Pairwise fun x y => x.1 + x.2.1.tokens.length ≤ y.1 :=
    List.pairwise_map.mp l.covers.sorted
  let Apart (x y : ℕ × Piece × List Cfg) : Prop :=
    (x.1 ≤ j ∧ j < x.1 + x.2.1.tokens.length) → (y.1 ≤ j ∧ j < y.1 + y.2.1.tokens.length) → x = y
  have hapart : (l.pieces node verbs).Pairwise Apart :=
    hsorted.imp fun hle hx hy => absurd hle (by omega)
  have hflip : (l.pieces node verbs).Pairwise (flip Apart) :=
    hsorted.imp fun hle hx hy => absurd hle (by omega)
  exact List.Pairwise.forall_of_forall_of_flip (fun x _ _ _ => rfl) hapart hflip h h' hk hk'

/-- A call below a level entered is a call of that level. -/
theorem Enters.reports {l l' : LevelEntry} (hent : Enters node verbs l l') {call : VerbCall}
    {j : ℕ} {q : Place} (hplace : call.place = l'.here ++ j :: q)
    (h : Reports node verbs syn l call) : Reports node verbs syn l' call := by
  induction hent with
  | self l => exact h
  | @inside l l' k offset pc cfgs mode ts hmem hinside hent ih =>
      refine ih hplace ?_
      obtain ⟨q', hq'⟩ := hent.here_prefix
      obtain ⟨k', pc', cfgs', hmem', h⟩ := reports_iff.mp h
      obtain ⟨j', q'', hplace', hle, hlt⟩ := h.place
      have hj : j' = k + offset := by
        rw [hplace', hq'] at hplace
        simp only [List.append_assoc, List.append_cancel_left_eq] at hplace
        exact (List.cons.inj hplace).1
      have hoffset := Piece.offset_lt hinside
      cases LevelEntry.piece_unique hmem hmem' ⟨Nat.le_add_right k offset, by omega⟩
        ⟨hj ▸ hle, hj ▸ hlt⟩
      rcases h with ⟨_, _, _, _, _, _, _, rfl, -, rfl⟩ | ⟨offset', mode', ts', hinside', h⟩
      · rw [hq'] at hplace
        simp at hplace
      · rw [hinside] at hinside'
        cases hinside'
        exact h

/-- No call of a level comes from a token that is passed over. -/
theorem Reports.skipped_le {l : LevelEntry} {call : VerbCall} {j : ℕ} {q : Place}
    (h : Reports node verbs syn l call) (hplace : call.place = l.here ++ j :: q) :
    l.mode.skipped ≤ j := by
  obtain ⟨k, pc, cfgs, hmem, h⟩ := reports_iff.mp h
  obtain ⟨j', q', hplace', hle, -⟩ := h.place
  have hj : j' = j := by
    rw [hplace', List.append_cancel_left_eq] at hplace
    exact (List.cons.inj hplace).1
  have hskip := (LevelEntry.mem_pieces hmem).1
  omega

/-! ## The run -/

section Replace

variable {R : Place → Option (List TokenTree)}

theorem replaceFirstArgs_skip (here : Place) (i n : ℕ) (ts : List TokenTree) :
    replaceFirstArgs R here i n ts = replaceFirstArgs R here (i + n) 0 (ts.drop n) := by
  induction n generalizing i ts with
  | zero => simp
  | succ n ih =>
      cases ts with
      | nil => simp [replaceFirstArgs]
      | cons t ts =>
          have hi : i + 1 + n = i + (n + 1) := by omega
          simp only [replaceFirstArgs, ih, hi, List.drop_succ_cons]

theorem replaceFirstArgs_append (here : Place) (i : ℕ) (ts ts' : List TokenTree) :
    replaceFirstArgs R here i 0 (ts ++ ts') =
      replaceFirstArgs R here i 0 ts ++ replaceFirstArgs R here (i + ts.length) 0 ts' := by
  induction ts generalizing i with
  | nil => simp [replaceFirstArgs]
  | cons t ts ih =>
      have hi : i + 1 + ts.length = i + (ts.length + 1) := by omega
      simp only [List.cons_append, replaceFirstArgs, ih, hi, List.length_cons]

theorem replaceIn_leaf {t : TokenTree} (ht : t.isGroup = false) (place : Place) :
    replaceIn R place t = t := by
  cases t with
  | group d ts => cases ht
  | ident name => rfl
  | punct c s => rfl
  | literal l => rfl

/-- Where no place of a stream has a reply, the stream stays. -/
theorem replaceFirstArgs_none (ts : List TokenTree) (here : Place) (i : ℕ)
    (h : ∀ j q, i ≤ j → j < i + ts.length → R (here ++ j :: q) = none) :
    replaceFirstArgs R here i 0 ts = ts := by
  induction ts using stream_induction generalizing here i with
  | nil => rfl
  | group d ts rest ihInner ih =>
      have hinner : replaceFirstArgs R (here ++ [i]) 0 0 ts = ts :=
        ihInner _ 0 fun j q _ _ => by simpa using h i (j :: q) (Nat.le_refl i) (by simp)
      have hrest : replaceFirstArgs R here (i + 1) 0 rest = rest :=
        ih here (i + 1) fun j q hle hlt =>
          h j q (by omega) (by simp only [List.length_cons]; omega)
      have hplace : R (here ++ [i]) = none := h i [] (Nat.le_refl i) (by simp)
      simp only [replaceFirstArgs, replaceIn, hplace, hinner, hrest]
  | leaf t rest ht ih =>
      have hrest : replaceFirstArgs R here (i + 1) 0 rest = rest :=
        ih here (i + 1) fun j q hle hlt =>
          h j q (by omega) (by simp only [List.length_cons]; omega)
      simp only [replaceFirstArgs, replaceIn_leaf ht, hrest]

end Replace

/-- A stretch of the walk adds to the log the reports of one kind, in the order they stand in
and all from within some places, and what it puts out follows from the replies to them. -/
def Traced (reports : VerbCall → Prop) (within : Place → Prop)
    (output : (Place → Option (List TokenTree)) → Prop) (log log' : CallLog) : Prop :=
  ∃ new : CallLog, log' = log ++ new ∧ (new.map (·.1.place)).Pairwise Earlier ∧
    (∀ call, call ∈ new.map (·.1) ↔ reports call) ∧ (∀ call, reports call → within call.place) ∧
    ∀ R, (∀ e ∈ new, R e.1.place = e.2) →
      (∀ p, within p → R p ≠ none → ∃ call, reports call ∧ call.place = p) → output R

theorem not_earlier_self (p : Place) : ¬ Earlier p p := List.lt_irrefl p

theorem earlier_append_left (here : Place) {p q : Place} (h : Earlier p q) :
    Earlier (here ++ p) (here ++ q) := by
  induction here with
  | nil => exact h
  | cons i here ih => exact .cons ih

theorem earlier_append (p : Place) {q : Place} (hne : q ≠ []) : Earlier p (p ++ q) := by
  cases q with
  | nil => exact absurd rfl hne
  | cons i q => simpa using earlier_append_left p (.nil : Earlier [] (i :: q))

theorem earlier_of_lt (here q q' : Place) {j j' : ℕ} (h : j < j') :
    Earlier (here ++ j :: q) (here ++ j' :: q') :=
  earlier_append_left here (.rel h)

namespace Traced

variable {reports reports' : VerbCall → Prop} {within within' : Place → Prop}
  {output output' : (Place → Option (List TokenTree)) → Prop} {log log' log'' : CallLog}

/-- Two stretches, the places of the one before those of the other. -/
theorem append (h : Traced reports within output log log')
    (h' : Traced reports' within' output' log' log'')
    (hearlier : ∀ p p', within p → within' p' → Earlier p p') :
    Traced (fun call => reports call ∨ reports' call) (fun p => within p ∨ within' p)
      (fun R => output R ∧ output' R) log log'' := by
  obtain ⟨new, rfl, hsorted, hnew, hin, hout⟩ := h
  obtain ⟨new', rfl, hsorted', hnew', hin', hout'⟩ := h'
  have hapart : ∀ p, within p → ¬ within' p := fun p hp hp' =>
    not_earlier_self p (hearlier p p hp hp')
  have hplace : ∀ p ∈ new.map (·.1.place), within p := by
    intro p hp
    obtain ⟨e, he, rfl⟩ := List.mem_map.mp hp
    exact hin _ ((hnew _).mp (List.mem_map_of_mem he))
  have hplace' : ∀ p ∈ new'.map (·.1.place), within' p := by
    intro p hp
    obtain ⟨e, he, rfl⟩ := List.mem_map.mp hp
    exact hin' _ ((hnew' _).mp (List.mem_map_of_mem he))
  refine ⟨new ++ new', by simp, ?_, ?_, ?_, ?_⟩
  · rw [List.map_append, List.pairwise_append]
    exact ⟨hsorted, hsorted', fun p hp p' hp' => hearlier p p' (hplace p hp) (hplace' p' hp')⟩
  · intro call
    rw [List.map_append, List.mem_append, hnew, hnew']
  · rintro call (h | h)
    · exact .inl (hin call h)
    · exact .inr (hin' call h)
  · intro R hR hnone
    constructor
    · refine hout R (fun e he => hR e (List.mem_append_left _ he)) fun p hp hne => ?_
      obtain ⟨call, hcall | hcall, rfl⟩ := hnone p (.inl hp) hne
      · exact ⟨call, hcall, rfl⟩
      · exact absurd (hin' call hcall) (hapart _ hp)
    · refine hout' R (fun e he => hR e (List.mem_append_right _ he)) fun p hp hne => ?_
      obtain ⟨call, hcall | hcall, rfl⟩ := hnone p (.inr hp) hne
      · exact absurd hp (hapart _ (hin call hcall))
      · exact ⟨call, hcall, rfl⟩

/-- The same stretch seen from more places. -/
theorem imp (h : Traced reports within output log log')
    (hreports : ∀ call, reports call ↔ reports' call) (hwithin : ∀ p, within p → within' p)
    (houtput : ∀ R, (∀ p, within' p → R p ≠ none → ∃ call, reports' call ∧ call.place = p) →
      output R → output' R) : Traced reports' within' output' log log' := by
  obtain ⟨new, hlog, hsorted, hnew, hin, hout⟩ := h
  refine ⟨new, hlog, hsorted, fun call => (hnew call).trans (hreports call),
    fun call hcall => hwithin _ (hin call ((hreports call).mpr hcall)), fun R hR hnone => ?_⟩
  refine houtput R hnone (hout R hR fun p hp hne => ?_)
  obtain ⟨call, hcall, hp⟩ := hnone p (hwithin p hp) hne
  exact ⟨call, (hreports call).mpr hcall, hp⟩

/-- A stretch without reports. -/
theorem silent (hno : ∀ call, ¬ reports call)
    (houtput : ∀ R : Place → Option (List TokenTree), (∀ p, within p → R p = none) → output R) :
    Traced reports within output log log :=
  ⟨[], by simp, by simp, by simpa using hno, fun call h => (hno call h).elim,
    fun R _ hnone => houtput R fun p hp => by
      by_contra hne
      obtain ⟨call, h, -⟩ := hnone p hp hne
      exact hno call h⟩

end Traced

theorem ok_of_bind {ε α β : Type} {x : Except ε α} {f : α → Except ε β} {b : β}
    (h : (x >>= f) = .ok b) : ∃ a, x = .ok a ∧ f a = .ok b := by
  cases x with
  | error e => cases h
  | ok a => exact ⟨a, rfl, h⟩

/-- What each step of a fold keeps, the fold keeps, of all it has gone through. -/
theorem foldlM_keeps {ε α β : Type} {f : β → α → Except ε β} (inv : List α → β → Prop)
    (step : ∀ l b a b', inv l b → f b a = .ok b' → inv (l ++ [a]) b')
    {b b' : β} {l : List α} (hinv : inv [] b) (h : l.foldlM f b = .ok b') : inv l b' := by
  suffices hrest : ∀ (l l₀ : List α) (b : β), inv l₀ b → l.foldlM f b = .ok b' →
      inv (l₀ ++ l) b' from hrest l [] b hinv h
  intro l
  induction l with
  | nil =>
      rintro l₀ b hinv ⟨⟩
      simpa using hinv
  | cons a l ih =>
      intro l₀ b hinv h
      rw [List.foldlM_cons] at h
      obtain ⟨b₁, hstep, hrest⟩ := ok_of_bind h
      simpa using ih (l₀ ++ [a]) b₁ (step l₀ b a b₁ hinv hstep) hrest

section Run

variable {σ : Type} {onCall : VerbCall → σ → Except String (Option (List TokenTree) × σ)}
  {here : Place}

theorem logged_traced {call : VerbCall} {reply : Option (List TokenTree)}
    {st st' : σ × CallLog} (h : logged onCall call st = .ok (reply, st')) :
    Traced (· = call) (· = call.place) (fun R => R call.place = reply) st.2 st'.2 := by
  obtain ⟨answer, -, hret⟩ := ok_of_bind h
  cases hret
  exact ⟨[(call, answer.1)], rfl, by simp, by simp, by simp, fun R hR _ =>
    hR (call, answer.1) (List.mem_singleton.mpr rfl)⟩

/-- The run over a group, from what is known of the run over the level it holds. -/
theorem rewriteGroup_eq (cfgs : List Cfg) (place : Place) (mode : LoopMode) (t : TokenTree)
    (st : σ) : rewriteGroup node verbs syn onCall cfgs place mode t st =
      rewriteVerbCallsIn node verbs syn onCall cfgs place 0 mode none [] [] t.stream st := by
  cases t <;> rfl

/-- A level whose walk is traced. -/
def LevelTraced (node : String) (verbs : VerbTable) (syn : ExprSyntax)
    (onCall : VerbCall → σ → Except String (Option (List TokenTree) × σ)) (l : LevelEntry) :
    Prop :=
  ∀ (st st' : σ × CallLog) (out : List TokenTree),
    rewriteVerbCallsIn node verbs syn (logged onCall) l.inherited l.here 0 l.mode none [] []
      l.stream st = .ok (out, st') →
    Traced (Reports node verbs syn l) (fun p => ∃ q, p = l.here ++ q ∧ q ≠ [])
      (fun R => out = replaceFirstArgs R l.here 0 l.mode.skipped l.stream) st.2 st'.2

theorem rewriteFirstArg_traced {k : ℕ} {verb : String} {write : Bool} {cfgs : List Cfg}
    {t dot name : TokenTree} {args out : List TokenTree} {st st' : σ × CallLog}
    (hinside : LevelTraced node verbs syn onCall
      ⟨here ++ [k + 3], cfgs, .skip (args.findIdx isComma), args⟩)
    (hrun : rewriteFirstArg syn (logged onCall) (here ++ [k + 3]) verb write cfgs args
      (fun split => rewriteVerbCallsIn node verbs syn (logged onCall) cfgs (here ++ [k + 3]) 0
        (.skip split) none [] [] args) st = .ok (out, st')) :
    Traced (PieceReports node verbs syn here k
        (.call verb write t dot name (.group .parenthesis args)) cfgs)
      (fun p => ∃ q, p = here ++ [k + 3] ++ q)
      (fun R => .group .parenthesis out =
        replaceIn R (here ++ [k + 3]) (.group .parenthesis args)) st.2 st'.2 := by
  unfold rewriteFirstArg at hrun
  cases htarget : syn.referenced (args.take (args.findIdx isComma)) with
  | none => simp [htarget] at hrun
  | some target =>
      simp only [htarget] at hrun
      obtain ⟨reply, hreply, hrun⟩ := ok_of_bind hrun
      obtain ⟨rest, hrest, hret⟩ := ok_of_bind hrun
      cases hret
      have happend := (logged_traced hreply).append (hinside _ _ _ hrest) (by
        rintro p p' rfl ⟨q, rfl, hne⟩
        exact earlier_append _ hne)
      refine happend.imp (fun call => ?_) (fun p => ?_) fun R hnone => ?_
      · constructor
        · rintro (rfl | h)
          · exact .inl ⟨verb, write, t, dot, name, _, target, rfl, htarget, rfl⟩
          · exact .inr ⟨3, _, _, rfl, h⟩
        · rintro (⟨verb', write', t', dot', name', g', target', hpc, htarget', rfl⟩ | h)
          · cases hpc
            cases htarget.symm.trans htarget'
            exact .inl rfl
          · obtain ⟨offset, mode, ts, hpc, h⟩ := h
            cases hpc
            exact .inr h
      · rintro (rfl | ⟨q, hq, -⟩)
        · exact ⟨[], by simp⟩
        · exact ⟨q, hq⟩
      · rintro ⟨hR, hrest⟩
        simp only at hR hrest
        cases hr : reply.1 with
        | some r => simp [replaceIn, hR, hr, hrest]
        | none =>
            -- No call is read in the first argument, so none has a reply there.
            have hfirst : ∀ j q, 0 ≤ j → j < 0 + (args.take (args.findIdx isComma)).length →
                R (here ++ [k + 3] ++ j :: q) = none := by
              intro j q _ hj
              by_contra hne
              obtain ⟨call, hcall, hplace⟩ := hnone _ ⟨_, rfl⟩ hne
              obtain ⟨_, _, _, _, _, _, _, -, -, rfl⟩ | ⟨offset, mode, ts, hpc, hcall⟩ := hcall
              · simp at hplace
              · cases hpc
                have hge := Reports.skipped_le hcall hplace
                simp only [LoopMode.skipped_skip, List.length_take, stream] at hge hj
                omega
            have hsplit := replaceFirstArgs_append (R := R) (here ++ [k + 3]) 0
              (args.take (args.findIdx isComma)) (args.drop (args.findIdx isComma))
            have hlen : (args.take (args.findIdx isComma)).length = args.findIdx isComma :=
              List.length_take_of_le List.findIdx_le_length
            rw [List.take_append_drop, replaceFirstArgs_none _ _ _ hfirst, hlen] at hsplit
            rw [replaceFirstArgs_skip] at hrest
            simp only [replaceIn, hR, hr, hsplit, Option.getD_none, hrest]
            rfl

/-- The places at some tokens of a level. -/
abbrev Among (here : Place) (k : ℕ) (ts : List TokenTree) (p : Place) : Prop :=
  Inside here k (k + ts.length) p

theorem rewritePiece_traced {k : ℕ} {pc : Piece} {cfgs : List Cfg} {out : List TokenTree}
    {st st' : σ × CallLog} (hshaped : pc.Shaped)
    (hinside : ∀ offset mode ts, pc.inside = some (offset, mode, ts) →
      LevelTraced node verbs syn onCall ⟨here ++ [k + offset], cfgs, mode, ts⟩)
    (hrun : rewritePiece node verbs syn (logged onCall) here k cfgs pc st = .ok (out, st')) :
    Traced (PieceReports node verbs syn here k pc cfgs) (Among here k pc.tokens)
      (fun R => out = replaceFirstArgs R here k 0 pc.tokens) st.2 st'.2 := by
  have copied : ∀ R : Place → Option (List TokenTree),
      (∀ p, Among here k pc.tokens p → R p = none) →
      pc.tokens = replaceFirstArgs R here k 0 pc.tokens := fun R hnone =>
    (replaceFirstArgs_none _ _ _ fun j q hle hlt => hnone _ ⟨j, q, rfl, hle, hlt⟩).symm
  cases pc with
  | attr t g =>
      cases hrun
      refine .silent (fun call => ?_) copied
      rintro (⟨_, _, _, _, _, _, _, hpc, -⟩ | ⟨_, _, _, hpc, -⟩) <;> cases hpc
  | item t =>
      cases hrun
      refine .silent (fun call => ?_) copied
      rintro (⟨_, _, _, _, _, _, _, hpc, -⟩ | ⟨_, _, _, hpc, -⟩) <;> cases hpc
  | call verb write t dot name g =>
      obtain ⟨ht, hdot, hname, args, rfl⟩ := hshaped
      obtain ⟨new, hnew, hret⟩ := ok_of_bind hrun
      cases hret
      refine (rewriteFirstArg_traced (hinside 3 _ _ rfl) hnew).imp (fun call => Iff.rfl) ?_ ?_
      · rintro p ⟨q, rfl⟩
        exact ⟨k + 3, q, by simp, by omega, by simp [Piece.tokens]⟩
      · intro R _ hout
        simp only [Piece.tokens, replaceFirstArgs, replaceIn_leaf ht, replaceIn_leaf hdot,
          replaceIn_leaf hname, hout]
        rfl
  | token t ends =>
      obtain ⟨new, hnew, hret⟩ := ok_of_bind hrun
      cases hret
      rw [rewriteGroup_eq] at hnew
      have hreports : ∀ call, Reports node verbs syn ⟨here ++ [k], cfgs, .read, t.stream⟩ call ↔
          PieceReports node verbs syn here k (.token t ends) cfgs call := by
        intro call
        constructor
        · exact fun h => .inr ⟨0, _, _, rfl, h⟩
        · rintro (⟨_, _, _, _, _, _, _, hpc, -⟩ | ⟨offset, mode, ts, hpc, h⟩)
          · cases hpc
          · cases hpc
            exact h
      refine (hinside 0 .read t.stream rfl _ _ _ hnew).imp hreports ?_ ?_
      · rintro p ⟨q, rfl, -⟩
        exact ⟨k, q, by simp, Nat.le_refl k, by simp [Piece.tokens]⟩
      · intro R hnone hout
        cases t with
        | group d ts =>
            have hplace : R (here ++ [k]) = none := by
              by_contra hne
              obtain ⟨call, hcall, hp⟩ :=
                hnone _ ⟨k, [], rfl, Nat.le_refl k, by simp [Piece.tokens]⟩ hne
              obtain ⟨q, hq, hq'⟩ := ((hreports call).mpr hcall).place
              exact hq' (by simpa [hp] using hq)
            simp only [Piece.tokens, replaceFirstArgs, replaceIn, hplace, withStream, hout]
            rfl
        | ident name => rfl
        | punct c s => rfl
        | literal l => rfl

/-- The pieces of a level, one after the other. -/
theorem rewritePieces_traced {i : ℕ} {ts out : List TokenTree} {st st' : σ × CallLog}
    (ps : List (ℕ × Piece × List Cfg)) (hcovers : Covers i (ps.map fun x => (x.1, x.2.1)) ts)
    (hinside : ∀ k pc cfgs, (k, pc, cfgs) ∈ ps → ∀ offset mode ts,
      pc.inside = some (offset, mode, ts) →
      LevelTraced node verbs syn onCall ⟨here ++ [k + offset], cfgs, mode, ts⟩)
    (hrun : rewritePieces node verbs syn (logged onCall) here ps st = .ok (out, st')) :
    Traced (fun call => ∃ k pc cfgs, (k, pc, cfgs) ∈ ps ∧
        PieceReports node verbs syn here k pc cfgs call) (Among here i ts)
      (fun R => out = replaceFirstArgs R here i 0 ts) st.2 st'.2 := by
  induction ps generalizing i ts out st with
  | nil =>
      cases hrun
      cases hcovers
      exact .silent (by simp) fun R _ => rfl
  | cons p ps ih =>
      obtain ⟨k, pc, cfgs⟩ := p
      obtain ⟨new, hnew, hrun⟩ := ok_of_bind hrun
      obtain ⟨rest, hrest, hret⟩ := ok_of_bind hrun
      cases hret
      cases hcovers with
      | @cons _ _ _ rest' hshaped hcovers =>
      have hhead := rewritePiece_traced hshaped (hinside k pc cfgs (by simp)) hnew
      have htail := ih hcovers (fun k pc cfgs hmem => hinside k pc cfgs (by simp [hmem])) hrest
      refine (hhead.append htail ?_).imp (fun call => ?_) (fun p => ?_) fun R _ hout => ?_
      · rintro p p' ⟨j, q, rfl, -, hlt⟩ ⟨j', q', rfl, hle, -⟩
        exact earlier_of_lt here q q' (by omega)
      · constructor
        · rintro (h | ⟨k', pc', cfgs', hmem, h⟩)
          · exact ⟨k, pc, cfgs, by simp, h⟩
          · exact ⟨k', pc', cfgs', by simp [hmem], h⟩
        · rintro ⟨k', pc', cfgs', hmem, h⟩
          rcases List.mem_cons.mp hmem with heq | hmem
          · cases heq
            exact .inl h
          · exact .inr ⟨k', pc', cfgs', hmem, h⟩
      · rintro (⟨j, q, rfl, hle, hlt⟩ | ⟨j, q, rfl, hle, hlt⟩)
        · exact ⟨j, q, rfl, hle, by rw [List.length_append]; omega⟩
        · exact ⟨j, q, rfl, by omega, by rw [List.length_append]; omega⟩
      · rw [replaceFirstArgs_append, ← hout.1, ← hout.2]

/-- The log of a walk holds the reports of its level, and its output is the level with the
accepted first arguments replaced. -/
theorem levelTraced (l : LevelEntry) : LevelTraced node verbs syn onCall l := by
  induction l using levels_induction node verbs with
  | level l ih =>
  intro st st' out hrun
  rw [rewriteVerbCallsIn_eq _ _ _ _ _ _ _ _ _ _ _ _ _ (fun _ => rfl) (fun _ _ => rfl)] at hrun
  have hinside := fun k pc cfgs hmem offset mode ts hin =>
    ih k pc cfgs offset mode ts hmem hin
  refine (rewritePieces_traced _ l.covers hinside hrun).imp (fun call => reports_iff.symm) ?_ ?_
  · rintro p ⟨j, q, rfl, -⟩
    exact ⟨j :: q, rfl, by simp⟩
  · intro R _ hout
    exact hout.trans (replaceFirstArgs_skip l.here 0 l.mode.skipped l.stream).symm

/-- Where the pieces of a level are walked, so is each of them. -/
theorem exists_rewritePiece (ps : List (ℕ × Piece × List Cfg)) {st : σ}
    {r : List TokenTree × σ} (hrun : rewritePieces node verbs syn onCall here ps st = .ok r)
    {k : ℕ} {pc : Piece} {cfgs : List Cfg} (hmem : (k, pc, cfgs) ∈ ps) :
    ∃ st r, rewritePiece node verbs syn onCall here k cfgs pc st = .ok r := by
  induction ps generalizing st r with
  | nil => cases hmem
  | cons p ps ih =>
      obtain ⟨new, hnew, hrun⟩ := ok_of_bind hrun
      obtain ⟨rest, hrest, -⟩ := ok_of_bind hrun
      rcases List.mem_cons.mp hmem with rfl | hmem
      · exact ⟨st, new, hnew⟩
      · exact ih hrest hmem

/-- A walk that succeeds could parse the first argument of each call it came to. -/
theorem referenced_of_run (l : LevelEntry) {st st' : σ} {out : List TokenTree}
    (hrun : rewriteVerbCallsIn node verbs syn onCall l.inherited l.here 0 l.mode none [] []
      l.stream st = .ok (out, st')) :
    ∀ l' k verb write t dot name g cfgs, Enters node verbs l l' →
      (k, .call verb write t dot name g, cfgs) ∈ l'.pieces node verbs →
      ∃ target, syn.referenced (g.stream.take (g.stream.findIdx isComma)) = some target := by
  induction l using levels_induction node verbs generalizing st st' out with
  | level l ih =>
  rw [rewriteVerbCallsIn_eq _ _ _ _ _ _ _ _ _ _ _ _ _ (fun _ => rfl) (fun _ _ => rfl)] at hrun
  intro l' k verb write t dot name g cfgs hent hmem
  cases hent with
  | self =>
      obtain ⟨st₁, r, hpiece⟩ := exists_rewritePiece _ hrun hmem
      obtain ⟨new, hnew, -⟩ := ok_of_bind hpiece
      unfold rewriteFirstArg at hnew
      cases htarget : syn.referenced (g.stream.take (g.stream.findIdx isComma)) with
      | none => simp [htarget] at hnew
      | some target => exact ⟨target, rfl⟩
  | @inside _ _ k' offset pc cfgs' mode ts hmem' hinside hent =>
      obtain ⟨st₁, r, hpiece⟩ := exists_rewritePiece _ hrun hmem'
      have hinner : ∃ st₂ r', rewriteVerbCallsIn node verbs syn onCall cfgs'
          (l.here ++ [k' + offset]) 0 mode none [] [] ts st₂ = .ok r' := by
        cases pc with
        | attr t g => cases hinside
        | item t => cases hinside
        | token t ends =>
            cases hinside
            obtain ⟨new, hnew, -⟩ := ok_of_bind hpiece
            exact ⟨st₁, new, by rwa [rewriteGroup_eq] at hnew⟩
        | call verb write t dot name g =>
            cases hinside
            obtain ⟨new, hnew, -⟩ := ok_of_bind hpiece
            unfold rewriteFirstArg at hnew
            cases htarget : syn.referenced (g.stream.take (g.stream.findIdx isComma)) with
            | none => simp [htarget] at hnew
            | some target =>
                simp only [htarget] at hnew
                obtain ⟨reply, -, hnew⟩ := ok_of_bind hnew
                obtain ⟨rest, hrest, -⟩ := ok_of_bind hnew
                exact ⟨reply.2, rest, by rwa [rewriteGroup_eq] at hrest⟩
      obtain ⟨st₂, r', hinner⟩ := hinner
      exact ih k' pc cfgs' offset mode ts hmem' hinside hinner l' k verb write t dot name g cfgs
        hent hmem

/-- A run can be logged. -/
theorem exists_logged_run (l : LevelEntry) {st st' : σ} {out : List TokenTree} (log : CallLog)
    (hrun : rewriteVerbCallsIn node verbs syn onCall l.inherited l.here 0 l.mode none [] []
      l.stream st = .ok (out, st')) :
    ∃ log', rewriteVerbCallsIn node verbs syn (logged onCall) l.inherited l.here 0 l.mode none
      [] [] l.stream (st, log) = .ok (out, (st', log')) := by
  induction l using levels_induction node verbs generalizing st st' out log with
  | level l ih =>
  rw [rewriteVerbCallsIn_eq _ _ _ _ _ _ _ _ _ _ _ _ _ (fun _ => rfl) (fun _ _ => rfl)] at hrun ⊢
  have hpiece : ∀ {k pc cfgs}, (k, pc, cfgs) ∈ l.pieces node verbs → ∀ {st st' out} (log : CallLog),
      rewritePiece node verbs syn onCall l.here k cfgs pc st = .ok (out, st') → ∃ log',
        rewritePiece node verbs syn (logged onCall) l.here k cfgs pc (st, log) =
          .ok (out, (st', log')) := by
    intro k pc cfgs hmem st st' out log hrun
    cases pc with
    | attr t g => cases hrun; exact ⟨log, rfl⟩
    | item t => cases hrun; exact ⟨log, rfl⟩
    | call verb write t dot name g =>
        obtain ⟨new, hnew, hret⟩ := ok_of_bind hrun
        cases hret
        unfold rewriteFirstArg at hnew
        cases htarget : syn.referenced (g.stream.take (g.stream.findIdx isComma)) with
        | none => simp [htarget] at hnew
        | some target =>
            simp only [htarget] at hnew
            obtain ⟨reply, hreply, hnew⟩ := ok_of_bind hnew
            obtain ⟨rest, hrest, hret⟩ := ok_of_bind hnew
            cases hret
            rw [rewriteGroup_eq] at hrest
            obtain ⟨log', hrest'⟩ := ih _ _ _ _ _ _ hmem rfl (log ++ [(_, reply.1)]) hrest
            refine ⟨log', ?_⟩
            simp only [rewritePiece, rewriteFirstArg, htarget, logged, hreply, rewriteGroup_eq,
              bind, Except.bind, pure, Except.pure]
            rw [hrest']
    | token t ends =>
        obtain ⟨new, hnew, hret⟩ := ok_of_bind hrun
        cases hret
        rw [rewriteGroup_eq] at hnew
        obtain ⟨log', hnew'⟩ := ih _ _ _ _ _ _ hmem rfl log hnew
        refine ⟨log', ?_⟩
        simp only [rewritePiece, rewriteGroup_eq, bind, Except.bind, pure, Except.pure]
        rw [show l.here ++ [k + 0] = l.here ++ [k] from rfl] at hnew'
        rw [hnew']
  have hpieces : ∀ ps : List (ℕ × Piece × List Cfg), (∀ p ∈ ps, p ∈ l.pieces node verbs) →
      ∀ {st st' out} (log : CallLog), rewritePieces node verbs syn onCall l.here ps st =
        .ok (out, st') → ∃ log', rewritePieces node verbs syn (logged onCall) l.here ps (st, log) =
          .ok (out, (st', log')) := by
    intro ps
    induction ps with
    | nil => intro _ st st' out log hrun; cases hrun; exact ⟨log, rfl⟩
    | cons p ps ihps =>
        intro hsub st st' out log hrun
        obtain ⟨new, hnew, hrun⟩ := ok_of_bind hrun
        obtain ⟨rest, hrest, hret⟩ := ok_of_bind hrun
        cases hret
        obtain ⟨log₁, hnew'⟩ := hpiece (hsub p (by simp)) log hnew
        obtain ⟨log₂, hrest'⟩ := ihps (fun p hp => hsub p (by simp [hp])) log₁ hrest
        refine ⟨log₂, ?_⟩
        simp only [rewritePieces, hnew', hrest', bind, Except.bind, pure, Except.pure]
  exact hpieces _ (fun p hp => hp) log hrun

/-- What the walk of a piece keeps, where the callback and the walk of what is inside keep it. -/
theorem rewritePiece_keeps {I : σ → Prop}
    (hstep : ∀ call st r, I st → onCall call st = .ok r → I r.2) {k : ℕ} {pc : Piece}
    {cfgs : List Cfg} {st : σ} {r : List TokenTree × σ}
    (hinside : ∀ offset mode ts, pc.inside = some (offset, mode, ts) → ∀ st r, I st →
      rewriteVerbCallsIn node verbs syn onCall cfgs (here ++ [k + offset]) 0 mode none [] [] ts st =
        .ok r → I r.2)
    (hrun : rewritePiece node verbs syn onCall here k cfgs pc st = .ok r) (h : I st) : I r.2 := by
  cases pc with
  | attr t g => cases hrun; exact h
  | item t => cases hrun; exact h
  | call verb write t dot name g =>
      obtain ⟨new, hnew, hret⟩ := ok_of_bind hrun
      cases hret
      unfold rewriteFirstArg at hnew
      cases htarget : syn.referenced (g.stream.take (g.stream.findIdx isComma)) with
      | none => simp [htarget] at hnew
      | some target =>
          simp only [htarget] at hnew
          obtain ⟨reply, hreply, hnew⟩ := ok_of_bind hnew
          obtain ⟨rest, hrest, hret⟩ := ok_of_bind hnew
          cases hret
          rw [rewriteGroup_eq] at hrest
          have hkept : I rest.2 := hinside 3 _ _ rfl _ _ (hstep _ _ _ h hreply) hrest
          exact hkept
  | token t ends =>
      obtain ⟨new, hnew, hret⟩ := ok_of_bind hrun
      cases hret
      rw [rewriteGroup_eq] at hnew
      have hkept : I new.2 := hinside 0 _ _ rfl _ _ h hnew
      exact hkept

/-- What the callback keeps of its state, the walk keeps. -/
theorem rewriteVerbCallsIn_keeps {I : σ → Prop}
    (hstep : ∀ call st r, I st → onCall call st = .ok r → I r.2) (l : LevelEntry) {st : σ}
    {r : List TokenTree × σ} (h : I st)
    (hrun : rewriteVerbCallsIn node verbs syn onCall l.inherited l.here 0 l.mode none [] []
      l.stream st = .ok r) : I r.2 := by
  induction l using levels_induction node verbs generalizing st r with
  | level l ih =>
  rw [rewriteVerbCallsIn_eq _ _ _ _ _ _ _ _ _ _ _ _ _ (fun _ => rfl) (fun _ _ => rfl)] at hrun
  have hpieces : ∀ ps : List (ℕ × Piece × List Cfg), (∀ p ∈ ps, p ∈ l.pieces node verbs) →
      ∀ {st r}, I st → rewritePieces node verbs syn onCall l.here ps st = .ok r → I r.2 := by
    intro ps
    induction ps with
    | nil => intro _ st r h hrun; cases hrun; exact h
    | cons p ps ihps =>
        intro hsub st r h hrun
        obtain ⟨new, hnew, hrun⟩ := ok_of_bind hrun
        obtain ⟨rest, hrest, hret⟩ := ok_of_bind hrun
        cases hret
        have hkept : I new.2 := rewritePiece_keeps hstep (fun offset mode ts hinside st r h hin =>
          ih p.1 p.2.1 p.2.2 offset mode ts (hsub p (by simp)) hinside h hin) hnew h
        have hkept' : I rest.2 := ihps (fun p hp => hsub p (by simp [hp])) hkept hrest
        exact hkept'
  exact hpieces _ (fun p hp => hp) h hrun

/-- The walk succeeds where the first argument of each call parses and the callback accepts
each report. -/
theorem exists_run (l : LevelEntry)
    (hparse : ∀ l' k verb write t dot name g cfgs, Enters node verbs l l' →
      (k, .call verb write t dot name g, cfgs) ∈ l'.pieces node verbs →
      ∃ target, syn.referenced (g.stream.take (g.stream.findIdx isComma)) = some target)
    (hcall : ∀ call, Reports node verbs syn l call → ∀ st, ∃ r, onCall call st = .ok r) (st : σ) :
    ∃ r, rewriteVerbCallsIn node verbs syn onCall l.inherited l.here 0 l.mode none [] []
      l.stream st = .ok r := by
  induction l using levels_induction node verbs generalizing st with
  | level l ih =>
  rw [rewriteVerbCallsIn_eq _ _ _ _ _ _ _ _ _ _ _ _ _ (fun _ => rfl) (fun _ _ => rfl)]
  have hinner : ∀ {k pc cfgs offset mode ts}, (k, pc, cfgs) ∈ l.pieces node verbs →
      pc.inside = some (offset, mode, ts) → ∀ st, ∃ r,
        rewriteVerbCallsIn node verbs syn onCall cfgs (l.here ++ [k + offset]) 0 mode none [] []
          ts st = .ok r := fun hmem hinside st =>
    ih _ _ _ _ _ _ hmem hinside
      (fun l' k verb write t dot name g cfgs hent => hparse l' k verb write t dot name g cfgs
        (.inside hmem hinside hent))
      (fun call hreport => hcall call (reports_iff.mpr ⟨_, _, _, hmem, .inr ⟨_, _, _, hinside,
        hreport⟩⟩)) st
  have hpiece : ∀ {k pc cfgs}, (k, pc, cfgs) ∈ l.pieces node verbs → ∀ st, ∃ r,
      rewritePiece node verbs syn onCall l.here k cfgs pc st = .ok r := by
    intro k pc cfgs hmem st
    cases pc with
    | attr t g => exact ⟨_, rfl⟩
    | item t => exact ⟨_, rfl⟩
    | call verb write t dot name g =>
        obtain ⟨target, htarget⟩ := hparse _ _ _ _ _ _ _ _ _ (.self l) hmem
        obtain ⟨reply, hreply⟩ := hcall _ (reports_iff.mpr ⟨_, _, _, hmem, .inl ⟨_, _, _, _, _, _,
          _, rfl, htarget, rfl⟩⟩) st
        obtain ⟨rest, hrest⟩ := hinner hmem rfl reply.2
        simp only [rewritePiece, rewriteFirstArg, htarget, hreply, rewriteGroup_eq, hrest, bind,
          Except.bind, pure, Except.pure]
        exact ⟨_, rfl⟩
    | token t ends =>
        obtain ⟨new, hnew⟩ := hinner hmem rfl st
        simp only [rewritePiece, rewriteGroup_eq, bind, Except.bind, pure, Except.pure]
        rw [show l.here ++ [k + 0] = l.here ++ [k] from rfl] at hnew
        rw [hnew]
        exact ⟨_, rfl⟩
  have hpieces : ∀ ps : List (ℕ × Piece × List Cfg), (∀ p ∈ ps, p ∈ l.pieces node verbs) →
      ∀ st, ∃ r, rewritePieces node verbs syn onCall l.here ps st = .ok r := by
    intro ps
    induction ps with
    | nil => exact fun _ st => ⟨_, rfl⟩
    | cons p ps ihps =>
        intro hsub st
        obtain ⟨new, hnew⟩ := hpiece (hsub p (by simp)) st
        obtain ⟨rest, hrest⟩ := ihps (fun p hp => hsub p (by simp [hp])) new.2
        simp only [rewritePieces, hnew, hrest, bind, Except.bind, pure, Except.pure]
        exact ⟨_, rfl⟩
  exact hpieces _ (fun p hp => hp) st

/-! ## A whole body -/

/-- The body of a function, as the walk enters it. -/
abbrev LevelEntry.body (ts : List TokenTree) : LevelEntry := { stream := ts }

theorem repliesOf_eq {log : CallLog} (hnodup : (log.map (·.1.place)).Nodup)
    {e : VerbCall × Option (List TokenTree)} (he : e ∈ log) : repliesOf log e.1.place = e.2 := by
  induction log with
  | nil => cases he
  | cons e' log ih =>
      obtain ⟨hne, hnodup⟩ := List.nodup_cons.mp hnodup
      rcases List.mem_cons.mp he with rfl | he
      · simp [repliesOf]
      · have hplace : e'.1.place ≠ e.1.place :=
          fun heq => hne (List.mem_map.mpr ⟨e, he, heq.symm⟩)
        simpa [repliesOf, List.find?_cons, hplace] using ih hnodup he

theorem exists_of_repliesOf_ne {log : CallLog} {p : Place} (h : repliesOf log p ≠ none) :
    ∃ e ∈ log, e.1.place = p := by
  cases hfind : log.find? (·.1.place = p) with
  | none => simp [repliesOf, hfind] at h
  | some e => exact ⟨e, List.mem_of_find?_eq_some hfind, by simpa using List.find?_some hfind⟩

section Body

variable {body out : List TokenTree} {st st' : σ} {log : CallLog}

/-- The log of a run holds the reports of the body, and the output is the body with the
replies in it put in place. -/
theorem rewriteVerbCalls_traced
    (hrun : rewriteVerbCalls node verbs syn (logged onCall) body (st, []) = .ok (out, (st', log))) :
    (log.map (·.1.place)).Nodup ∧
    (∀ call, call ∈ log.map (·.1) ↔ Reports node verbs syn (.body body) call) ∧
    out = replaceFirstArgs (repliesOf log) [] 0 0 body := by
  obtain ⟨new, hlog, hsorted, hnew, -, hout⟩ := levelTraced (.body body) _ _ _ hrun
  obtain rfl : log = new := by simpa using hlog
  have hnodup : (log.map (·.1.place)).Nodup := by
    refine hsorted.imp ?_
    rintro p _ hlt rfl
    exact not_earlier_self p hlt
  refine ⟨hnodup, hnew, hout _ (fun e he => repliesOf_eq hnodup he) fun p _ hp => ?_⟩
  obtain ⟨e, he, hplace⟩ := exists_of_repliesOf_ne hp
  exact ⟨e.1, (hnew _).mp (List.mem_map_of_mem he), hplace⟩

/-- The reports come in the order the calls stand in. -/
theorem rewriteVerbCalls_sorted
    (hrun : rewriteVerbCalls node verbs syn (logged onCall) body (st, []) = .ok (out, (st', log))) :
    (log.map (·.1.place)).Pairwise Earlier := by
  obtain ⟨new, hlog, hsorted, -⟩ := levelTraced (.body body) _ _ _ hrun
  exact (show log = new by simpa using hlog) ▸ hsorted

/-- A run that succeeds reports a call for each recognised place. -/
theorem recognises_iff
    (hrun : rewriteVerbCalls node verbs syn (logged onCall) body (st, []) = .ok (out, (st', log)))
    (p : Place) : Recognises node verbs (.body body) p ↔ ∃ e ∈ log, e.1.place = p := by
  obtain ⟨-, hlog, -⟩ := rewriteVerbCalls_traced hrun
  constructor
  · rintro ⟨l', k, verb, write, t, dot, name, g, cfgs, hent, hmem, rfl⟩
    obtain ⟨target, htarget⟩ := referenced_of_run (.body body) hrun _ _ _ _ _ _ _ _ _ hent hmem
    obtain ⟨e, he, heq⟩ := List.mem_map.mp
      ((hlog _).mpr ⟨l', k, verb, write, t, dot, name, g, cfgs, target, hent, hmem, htarget, rfl⟩)
    exact ⟨e, he, by rw [heq]⟩
  · rintro ⟨e, he, rfl⟩
    obtain ⟨l', k, verb, write, t, dot, name, g, cfgs, target, hent, hmem, -, heq⟩ :=
      (hlog _).mp (List.mem_map_of_mem he)
    exact ⟨l', k, verb, write, t, dot, name, g, cfgs, hent, hmem, by rw [heq]⟩

end Body

end Run

/-! ## Nested function items -/

/-- Within a nested function item the loop copies, up to the first token that closes it. -/
theorem item_until_close {k i : ℕ} {pc : Piece} {prev : Option TokenTree} {ts : List TokenTree}
    (h : (k, pc) ∈ pieces node verbs i .item prev ts) (hk : k ≤ i + ts.findIdx closesItem) :
    ∃ t, pc = .item t := by
  induction ts generalizing i prev with
  | nil => cases h
  | cons t rest ih =>
      rcases List.mem_cons.mp (by simpa only [pieces] using h) with heq | h
      · exact ⟨t, (Prod.mk.inj heq).2⟩
      · have hle := ((pieces_covers _ _ _ _).of_mem h).1
        rw [List.findIdx_cons] at hk
        cases hclose : closesItem t with
        | true => simp [hclose] at hk; omega
        | false =>
            simp only [LoopMode.afterItem, hclose] at h hk
            exact ih h (by simp at hk; omega)

/-- A level cut at a token of a nested function item. -/
def CutAt (node : String) (verbs : VerbTable) (start : ℕ) (t : TokenTree) (i : ℕ)
    (ps : List (ℕ × Piece)) (ts : List TokenTree) : Prop :=
  ∃ front rest, ps = front ++
      (start, .item t) :: pieces node verbs (start + 1) (.afterItem t) (some t) rest ∧
    i ≤ start ∧ ts.drop (start - i) = t :: rest ∧ ∀ x ∈ front, x.1 < start

theorem CutAt.cons {start i width : ℕ} {t : TokenTree} {pc : Piece} {ps : List (ℕ × Piece)}
    {ts : List TokenTree} (h : CutAt node verbs start t (i + width) ps (ts.drop width))
    (hwidth : 0 < width) : CutAt node verbs start t i ((i, pc) :: ps) ts := by
  obtain ⟨front, rest, rfl, hle, hdrop, hfront⟩ := h
  refine ⟨(i, pc) :: front, rest, rfl, by omega, ?_, ?_⟩
  · rw [List.drop_drop] at hdrop
    rwa [show start - i = width + (start - (i + width)) by omega]
  · intro x hx
    rcases List.mem_cons.mp hx with rfl | hx
    · exact (by omega : i < start)
    · exact hfront x hx

theorem cutAt_of_mem {start i : ℕ} {t : TokenTree} {mode : LoopMode} {prev : Option TokenTree}
    {ts : List TokenTree} (h : (start, .item t) ∈ pieces node verbs i mode prev ts) :
    CutAt node verbs start t i (pieces node verbs i mode prev ts) ts := by
  induction i, mode, prev, ts using level_induction node verbs with
  | nil i mode prev => cases h
  | skip i n prev t' rest ih =>
      obtain ⟨front, rest', hps, hle, hdrop, hfront⟩ := ih (by simpa [pieces] using h)
      refine ⟨front, rest', by simpa [pieces] using hps, by omega, ?_, hfront⟩
      rwa [show start - i = (start - (i + 1)) + 1 by omega, List.drop_succ_cons]
  | inItem i prev t' rest ih =>
      simp only [pieces] at h ⊢
      rcases List.mem_cons.mp h with heq | h
      · cases heq
        exact ⟨[], rest, rfl, Nat.le_refl _, by simp, by simp⟩
      · exact .cons (ih h) (by omega)
  | attr i prev t' g rest hhead ih =>
      rw [pieces_attr hhead] at h ⊢
      exact .cons (ih (by simpa using h)) (by omega)
  | item i prev t' rest hhead ih =>
      rw [pieces_item hhead] at h ⊢
      rcases List.mem_cons.mp h with heq | h
      · cases heq
        obtain ⟨rfl, -⟩ := headOf_item hhead
        exact ⟨[], rest, rfl, Nat.le_refl _, by simp, by simp⟩
      · exact .cons (ih h) (by omega)
  | call i prev t' verb write dot name g rest hhead ih =>
      rw [pieces_call hhead] at h ⊢
      exact .cons (ih (by simpa using h)) (by omega)
  | token i prev t' rest hhead ih =>
      rw [pieces_token hhead] at h ⊢
      exact .cons (ih (by simpa using h)) (by omega)

/-- From a token of a nested function item on, up to the first one that closes it, the loop
copies. -/
theorem item_from {k start : ℕ} {pc : Piece} {t : TokenTree} {l : LevelEntry}
    {cfgs cfgs' : List Cfg} (hstart : (start, .item t, cfgs) ∈ l.pieces node verbs)
    (h : (k, pc, cfgs') ∈ l.pieces node verbs) (hle : start ≤ k)
    (hk : k ≤ start + (l.stream.drop start).findIdx closesItem) : ∃ t, pc = .item t := by
  obtain ⟨front, rest, hps, -, hdrop, hfront⟩ := cutAt_of_mem (mem_of_withCfgs hstart)
  have hmem := mem_of_withCfgs h
  rw [hps] at hmem
  rcases List.mem_append.mp hmem with hmem | hmem
  · exact absurd (hfront _ hmem) (by simp only; omega)
  · rcases List.mem_cons.mp hmem with heq | hmem
    · exact ⟨t, (Prod.mk.inj heq).2⟩
    · have hlt := ((pieces_covers _ _ _ _).of_mem hmem).1
      rw [Nat.sub_zero] at hdrop
      rw [hdrop, List.findIdx_cons] at hk
      cases hclose : closesItem t with
      | true => simp [hclose] at hk; omega
      | false =>
          simp only [LoopMode.afterItem, hclose] at hmem hk
          exact item_until_close hmem (by simp at hk; omega)

/-- No call is reported from a nested function item up to the first token that closes it. -/
theorem not_reported_in_item {start j : ℕ} {q : Place} {t : TokenTree} {l : LevelEntry}
    {cfgs : List Cfg} {call : VerbCall} (hstart : (start, .item t, cfgs) ∈ l.pieces node verbs)
    (hle : start ≤ j) (hj : j ≤ start + (l.stream.drop start).findIdx closesItem)
    (hplace : call.place = l.here ++ j :: q) : ¬ Reports node verbs syn l call := by
  intro h
  obtain ⟨k, pc, cfgs', hmem, h⟩ := reports_iff.mp h
  obtain ⟨j', q', hplace', hk, hlt⟩ := h.place
  obtain rfl : j' = j := by
    rw [hplace', List.append_cancel_left_eq] at hplace
    exact (List.cons.inj hplace).1
  have hstart_le : start ≤ k := by
    by_contra hlt'
    have heq := LevelEntry.piece_unique hstart hmem (j := start)
      ⟨Nat.le_refl start, by simp [Piece.tokens]⟩ ⟨by omega, by omega⟩
    cases heq
    omega
  obtain ⟨t', rfl⟩ := item_from hstart hmem hstart_le (by omega)
  rcases h with ⟨_, _, _, _, _, _, _, hpc, -⟩ | ⟨_, _, _, hpc, -⟩ <;> cases hpc

/-- What the walk leaves alone in a body: all of it where no reply came, and all but the first
arguments of the calls that got one. -/
structure OnlyArguments (node : String) (verbs : VerbTable) (body out : List TokenTree)
    (log : CallLog) : Prop where
  declined : (∀ e ∈ log, e.2 = none) → out = body
  replaced : out = replaceFirstArgs (repliesOf log) [] 0 0 body
  replies : ∀ e ∈ log, Recognises node verbs (.body body) e.1.place ∧ repliesOf log e.1.place = e.2

/-- No call in the nested function item is reported, nor changed. -/
structure ItemSpared (log : CallLog) (here : Place) (start : ℕ) (item : List TokenTree) :
    Prop where
  unreported : ∀ e ∈ log, ¬ Inside here start (start + item.length) e.1.place
  unchanged : replaceFirstArgs (repliesOf log) here start 0 item = item

section Body

variable {σ : Type} {onCall : VerbCall → σ → Except String (Option (List TokenTree) × σ)}
  {body out : List TokenTree} {st st' : σ} {log : CallLog}

theorem repliesOf_eq_none {p : Place} (hp : ∀ e ∈ log, e.1.place ≠ p) : repliesOf log p = none := by
  by_contra hne
  obtain ⟨e, he, hplace⟩ := exists_of_repliesOf_ne hne
  exact hp e he hplace

theorem onlyArguments
    (hrun : rewriteVerbCalls node verbs syn (logged onCall) body (st, []) = .ok (out, (st', log))) :
    OnlyArguments node verbs body out log := by
  obtain ⟨hnodup, -, hout⟩ := rewriteVerbCalls_traced hrun
  refine ⟨fun hdeclined => ?_, hout, fun e he => ?_⟩
  · rw [hout, replaceFirstArgs_none]
    intro j q _ _
    by_contra hne
    obtain ⟨e, he, hplace⟩ := exists_of_repliesOf_ne hne
    exact hne (hplace ▸ (repliesOf_eq hnodup he).trans (hdeclined e he))
  · exact ⟨(recognises_iff hrun _).mpr ⟨e, he, rfl⟩, repliesOf_eq hnodup he⟩

/-- Only first arguments of reported calls change, and each nested function item is left alone
where no call is recognised in it behind the first brace group or semicolon of the item. -/
theorem onlyArguments_iff
    (hrun : rewriteVerbCalls node verbs syn (logged onCall) body (st, []) = .ok (out, (st', log))) :
    OnlyArguments node verbs body out log ∧
      ∀ {l : LevelEntry} {start : ℕ} {cfgs : List Cfg} {item back : List TokenTree},
        Enters node verbs (.body body) l →
        (start, .item (.ident "fn"), cfgs) ∈ l.pieces node verbs →
        l.stream.drop start = item ++ back →
        (ItemSpared log l.here start item ↔
          ∀ p, Recognises node verbs (.body body) p →
            ¬ Inside l.here (start + item.findIdx closesItem + 1) (start + item.length) p) := by
  refine ⟨onlyArguments hrun, fun {l start cfgs item back} hl hstart hitem => ?_⟩
  obtain ⟨-, hlog, -⟩ := rewriteVerbCalls_traced hrun
  constructor
  · rintro h p hp ⟨j, q, rfl, hle, hlt⟩
    obtain ⟨e, he, hplace⟩ := (recognises_iff hrun _).mp hp
    exact h.unreported e he ⟨j, q, hplace, by omega, hlt⟩
  · intro h
    have hunreported : ∀ e ∈ log, ¬ Inside l.here start (start + item.length) e.1.place := by
      rintro e he ⟨j, q, hplace, hle, hlt⟩
      have hj : j ≤ start + item.findIdx closesItem := by
        by_contra hj
        exact h _ ((recognises_iff hrun _).mpr ⟨e, he, rfl⟩) ⟨j, q, hplace, by omega, hlt⟩
      have hreport := hl.reports hplace ((hlog _).mp (List.mem_map_of_mem he))
      have hfind : item.findIdx closesItem ≤ (l.stream.drop start).findIdx closesItem := by
        have hlen : item.findIdx closesItem ≤ item.length := List.findIdx_le_length
        rw [hitem, List.findIdx_append]
        split <;> omega
      exact not_reported_in_item hstart hle (by omega) hplace hreport
    refine ⟨hunreported, replaceFirstArgs_none _ _ _ fun j q hle hlt => ?_⟩
    exact repliesOf_eq_none fun e he hplace => hunreported e he ⟨j, q, hplace, hle, hlt⟩

end Body

end Pieces

/-- A parser that reads `&NAME` and digits alone. -/
def nameSyntax : ExprSyntax where
  referenced
    | [.punct '&' _, .ident name] => some [.ident name]
    | _ => none
  text
    | [.ident name] => name
    | _ => ""
  integer
    | [.literal text] => ["0", "1", "2", "3", "4", "5", "6", "7", "8", "9"].idxOf? text
    | _ => none

/-- A callback that declines. -/
def decline (_ : VerbCall) (_ : Unit) : Except String (Option (List TokenTree) × Unit) :=
  .ok (none, ())

/-- `node.put(&NAME)`. -/
def putCall (name : String) : List TokenTree :=
  [.ident "node", .punct '.' .alone, .ident "put",
    .group .parenthesis [.punct '&' .alone, .ident name]]

def putReport (name : String) (place : Place) : VerbCall where
  verb := "put"
  cfgs := []
  write := true
  target := [.ident name]
  path := name
  place := place

/-- `fn g(node: &N) -> A<{ 1 }> { node.put(&X) }`. -/
def bracedSignature : List TokenTree :=
  [.ident "fn", .ident "g",
    .group .parenthesis [.ident "node", .punct ':' .alone, .punct '&' .alone, .ident "N"],
    .punct '-' .joint, .punct '>' .alone, .ident "A", .punct '<' .alone,
    .group .brace [.literal "1"], .punct '>' .alone, .group .brace (putCall "X")]

/-- The call in the body of the function is reported. -/
theorem bracedSignature_reported :
    rewriteVerbCalls "node" {} nameSyntax (logged decline) bracedSignature ((), []) =
      .ok (bracedSignature, ((), [(putReport "X" [9, 3], none)])) ∧
    ¬ ItemSpared [(putReport "X" [9, 3], none)] [] 0 bracedSignature := by
  refine ⟨rfl, fun h => ?_⟩
  exact h.unreported _ (List.mem_singleton.mpr rfl) ⟨9, [3], rfl, by decide, by decide⟩

/-- `fn g() { node.put(&X) }`. -/
def plainItem : List TokenTree :=
  [.ident "fn", .ident "g", .group .parenthesis [], .group .brace (putCall "X")]

/-- `fn g() { node.put(&X) } node.put(&Y)`: only the second call is reported. -/
theorem onlyArguments_plainItem :
    OnlyArguments "node" {} (plainItem ++ putCall "Y") (plainItem ++ putCall "Y")
      [(putReport "Y" [7], none)] ∧
    ItemSpared [(putReport "Y" [7], none)] [] 0 plainItem := by
  have hrun : rewriteVerbCalls "node" {} nameSyntax (logged decline)
      (plainItem ++ putCall "Y") ((), []) =
      .ok (plainItem ++ putCall "Y", ((), [(putReport "Y" [7], none)])) := rfl
  have hstart : (0, Piece.item (.ident "fn"), []) ∈
      (LevelEntry.body (plainItem ++ putCall "Y")).pieces "node" {} := by decide
  obtain ⟨honly, hitems⟩ := onlyArguments_iff hrun
  refine ⟨honly, (hitems (.self _) hstart rfl).mpr ?_⟩
  rintro p - ⟨j, q, rfl, hle, hlt⟩
  have hclose : plainItem.findIdx closesItem = 3 := rfl
  have hlen : plainItem.length = 4 := rfl
  omega

end EmbassySupervisor
