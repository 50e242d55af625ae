import DecentStore.Lib.Transcript

/-!
# Programs that report

A program may report on its way: a report goes out and nothing comes back. `Prog.quiet` makes a
program of one that does not report, and `Prog.muted` takes the reports out again. What the muted
program does is what the reporting one does between its reports, so whatever holds of the one at
every point holds of the other.
-/

namespace Interaction

variable {Call R : Type} {Reply : Call → Type} {ε α β σ : Type}

/-- The calls and the reports. -/
abbrev Reported (Reply : Call → Type) (R : Type) : Call ⊕ R → Type
  | .inl c => Reply c
  | .inr _ => Unit

namespace Prog

def quiet : Prog Reply ε α → Prog (Reported Reply R) ε α
  | .pure a => .pure a
  | .throw e => .throw e
  | .call c next => .call (.inl c) fun r => (next r).quiet

def report (r : R) : Prog (Reported Reply R) ε Unit := .call (.inr r) .pure

def muted : Prog (Reported Reply R) ε α → Prog Reply ε α
  | .pure a => .pure a
  | .throw e => .throw e
  | .call (.inl c) next => .call c fun r => (next r).muted
  | .call (.inr _) next => (next ()).muted

@[simp]
theorem muted_pure (a : α) : (Pure.pure a : Prog (Reported Reply R) ε α).muted = Pure.pure a := rfl

@[simp]
theorem muted_throw (e : ε) :
    (MonadExcept.throw e : Prog (Reported Reply R) ε α).muted = MonadExcept.throw e := rfl

@[simp]
theorem muted_report (r : R) : (report r : Prog (Reported Reply R) ε Unit).muted = Pure.pure () :=
  rfl

@[simp]
theorem muted_ofExcept (r : Except ε α) :
    (ofExcept r : Prog (Reported Reply R) ε α).muted = ofExcept r := by
  cases r <;> rfl

@[simp]
theorem muted_quiet (p : Prog Reply ε α) : (p.quiet : Prog (Reported Reply R) ε α).muted = p := by
  induction p with
  | pure a => rfl
  | throw e => rfl
  | call c next ih => exact congrArg (Prog.call c) (funext ih)

@[simp]
theorem muted_bind (p : Prog (Reported Reply R) ε α) (f : α → Prog (Reported Reply R) ε β) :
    (p >>= f).muted = p.muted >>= fun a => (f a).muted := by
  change (p.bind f).muted = p.muted.bind fun a => (f a).muted
  induction p with
  | pure a => rfl
  | throw e => rfl
  | call c next ih =>
      cases c with
      | inl c => exact congrArg (Prog.call c) (funext ih)
      | inr r => exact ih ()

/-! ### Against a handler -/

def heard (h : Handler Reply σ) : Handler (Reported Reply R) σ
  | .inl c, s => h c s
  | .inr _, s => ((), s)

/-- The reports change nothing. -/
theorem run_heard (h : Handler Reply σ) (p : Prog (Reported Reply R) ε α) (s : σ) :
    p.run (heard h) s = p.muted.run h s := by
  induction p generalizing s with
  | pure a => rfl
  | throw e => rfl
  | call c next ih =>
      cases c with
      | inl c => exact ih (h c s).1 (h c s).2
      | inr r => exact ih () s

end Prog

/-! ### What has been done and said -/

/-- The calls of a history, with their replies. -/
def calls (past : List (Event (Reported Reply R))) : List (Event Reply) :=
  past.filterMap fun
    | ⟨.inl c, r⟩ => some ⟨c, r⟩
    | ⟨.inr _, _⟩ => none

def reports (past : List (Event (Reported Reply R))) : List R :=
  past.filterMap fun
    | ⟨.inl _, _⟩ => none
    | ⟨.inr r, _⟩ => some r

theorem reports_append (past past' : List (Event (Reported Reply R))) :
    reports (past ++ past') = reports past ++ reports past' := by simp [reports]

theorem calls_append (past past' : List (Event (Reported Reply R))) :
    calls (past ++ past') = calls past ++ calls past' := by simp [calls]

section Snoc

variable (past : List (Event (Reported Reply R))) (c : Call) (r : Reply c) (said : R)

@[simp]
theorem calls_snoc_call : calls (past ++ [⟨.inl c, r⟩]) = calls past ++ [⟨c, r⟩] := by
  simp [calls]

@[simp]
theorem calls_snoc_report : calls (past ++ [⟨.inr said, ()⟩]) = calls past := by simp [calls]

@[simp]
theorem reports_snoc_call : reports (past ++ [⟨.inl c, r⟩]) = reports past := by simp [reports]

@[simp]
theorem reports_snoc_report : reports (past ++ [⟨.inr said, ()⟩]) = reports past ++ [said] := by
  simp [reports]

end Snoc

namespace Prog

/-- The muted program gets as far, with the same calls. -/
theorem Reaches.muted {p q : Prog (Reported Reply R) ε α} {events : List (Event (Reported Reply R))}
    (hreaches : p.Reaches events q) : p.muted.Reaches (calls events) q.muted := by
  induction hreaches with
  | start p => exact .start _
  | @call c next r events q hrest ih =>
      cases c with
      | inl c => exact .call ih
      | inr said => exact ih

/-- **A part without reports.** Its calls are judged as they would be without reports. -/
theorem Follows.quiet {before : List (Event Reply) → Call → Prop}
    {before' : List (Event (Reported Reply R)) → Call ⊕ R → Prop}
    {post : List (Event Reply) → Except ε α → Prop} {p : Prog Reply ε α}
    {past : List (Event (Reported Reply R))} (hp : p.Follows before post (calls past))
    (hbefore : ∀ past' c, reports past' = reports past → calls past <+: calls past' →
      before (calls past') c → before' past' (.inl c)) :
    (p.quiet : Prog (Reported Reply R) ε α).Follows before'
      (fun past' r => reports past' = reports past ∧ calls past <+: calls past' ∧
        post (calls past') r) past := by
  induction p generalizing past with
  | pure a => exact ⟨rfl, List.prefix_rfl, hp⟩
  | throw e => exact ⟨rfl, List.prefix_rfl, hp⟩
  | call c next ih =>
      refine ⟨hbefore past c rfl List.prefix_rfl hp.1, fun r => ?_⟩
      have hsame : reports (past ++ [⟨.inl c, r⟩]) = reports past := reports_snoc_call past c r
      have hgrown : calls past <+: calls (past ++ [⟨.inl c, r⟩]) := by
        rw [calls_snoc_call]
        exact List.prefix_append _ _
      have hnext : (next r).Follows before post (calls (past ++ [⟨.inl c, r⟩])) := by
        rw [calls_snoc_call]
        exact hp.2 r
      refine (ih r hnext fun past' c' hreports hcalls =>
        hbefore past' c' (hreports.trans hsame) (hgrown.trans hcalls)).mono ?_
      rintro past' r' ⟨hreports, hcalls, hpost⟩
      exact ⟨hreports.trans hsame, hgrown.trans hcalls, hpost⟩

end Prog

end Interaction
