/-
# What the parser's checks are worth in a build

`ready_on_write` does nothing without a beat budget and an `observed beat` write, and
`beat_window:` nothing without the budget. The parser asks for both in the declaration. A
build takes clauses and entries out of it by their gates.

The gates of the clauses are compared with each other, and a build follows. Those of the
entries in `writes:` are not: a build may leave out every entry that the parser has seen.
-/

import EmbassySupervisor.Macro.ItemParse

namespace EmbassySupervisor.Decl

open TokenTree

section Build

variable (syn : ExprSyntax) (σ : Assignment)

end Build

section Gates

variable {syn : ExprSyntax} {σ : Assignment} {attrs : List AttrMeta}

end Gates

section Accepted

variable {syn : ExprSyntax} {input : NodeInput} {n : NodeItem}

theorem require_ok {holds : Bool} {error : String} (h : require holds error = .ok ()) :
    holds = true := by
  unfold require at h
  split at h
  · assumption
  · cases h

theorem parseClauseCfg_ok {host : ClauseHost} {attrs : List AttrMeta} {clause : Clause}
    (h : parseClauseCfg host attrs clause = .ok ()) : ∀ a ∈ attrs, a.isCfg = true := by
  unfold parseClauseCfg at h
  split at h
  · next hnone => simp [hnone]
  obtain ⟨⟨⟩, hforM, -⟩ := ok_of_bind h
  clear h
  induction attrs with
  | nil => nofun
  | cons a rest ih =>
      obtain ⟨⟨⟩, hcfg, hrest⟩ := ok_of_bind hforM
      rintro b hb
      rcases List.mem_cons.mp hb with rfl | hb
      · cases b with
        | list p d tokens args =>
            simp only [requireCfgList] at hcfg
            split at hcfg
            · next hp => simp [AttrMeta.isCfg, hp]
            · cases hcfg
        | path p => cases hcfg
        | nameValue p value => cases hcfg
      · exact ih (by rintro rfl; cases hb) hrest b hb

/-- What gates the clauses about the beat, as far as they have been read. -/
structure NodeClauses.CfgsOnly (st : NodeClauses) : Prop where
  timeout : ∀ bt, st.beatTimeout = some bt → ∀ a ∈ bt.cfg, a.isCfg = true
  window : ∀ bw, st.beatWindow = some bw → ∀ a ∈ bw.cfg, a.isCfg = true
  ready : ∀ row, st.readyOnWrite = some row → ∀ a ∈ row.cfg, a.isCfg = true

theorem once_ok {α : Type} {slot slot' : Option α} {error : String} {value : α}
    (h : once slot error value = .ok slot') : slot' = some value := by
  unfold once at h
  split at h
  · cases h
  · cases h
    rfl

theorem NodeClauses.CfgsOnly.parseNodeClause {st st' : NodeClauses}
    {c : List AttrMeta × Clause} (hs : st.CfgsOnly)
    (h : Decl.parseNodeClause syn st c = .ok st') : st'.CfgsOnly := by
  obtain ⟨⟨⟩, hcfg, h⟩ := ok_of_bind h
  have hcfgs := parseClauseCfg_ok hcfg
  obtain ⟨common, -, h⟩ := ok_of_bind h
  cases common with
  | some common =>
      cases h
      exact ⟨hs.timeout, hs.window, hs.ready⟩
  | none =>
      obtain ⟨cfg, clause⟩ := c
      cases clause with
      | readyOnWrite =>
          obtain ⟨row, hrow, h⟩ := ok_of_bind h
          cases h
          rw [once_ok hrow]
          refine ⟨hs.timeout, hs.window, ?_⟩
          rintro _ ⟨⟩
          exact hcfgs
      | beatTimeout ms =>
          obtain ⟨bt, hbt, h⟩ := ok_of_bind h
          cases h
          rw [once_ok hbt]
          refine ⟨?_, hs.window, hs.ready⟩
          rintro _ ⟨⟩
          exact hcfgs
      | beatWindow sweeps =>
          obtain ⟨bw, hbw, h⟩ := ok_of_bind h
          cases h
          rw [once_ok hbw]
          refine ⟨hs.timeout, ?_, hs.ready⟩
          rintro _ ⟨⟩
          exact hcfgs
      | deps entries =>
          simp only at h
          split at h
          · cases h
          obtain ⟨deps, -, h⟩ := ok_of_bind h
          cases h
          exact ⟨hs.timeout, hs.window, hs.ready⟩
      | disabled | enabledIf | restartBudget =>
          obtain ⟨slot, -, h⟩ := ok_of_bind h
          cases h
          exact ⟨hs.timeout, hs.window, hs.ready⟩
      | provides entries =>
          obtain ⟨provides, -, h⟩ := ok_of_bind h
          split at h
          · cases h
          cases h
          exact ⟨hs.timeout, hs.window, hs.ready⟩
      | exit ty =>
          cases h
          exact ⟨hs.timeout, hs.window, hs.ready⟩
      | _ => cases h

end Accepted

end EmbassySupervisor.Decl
