import Treewalk.Proofs.Simulation.Sessions

/-!
# What a run asks for

A run comes to a task, in some state of the machine, if it makes a difference
what is done there.  Whatever expression a run comes to evaluate, machines that
are in step have come to it as well.
-/

namespace Treewalk

namespace Eval

open Classical in
/-- The evaluator, but with an alarm in place of the tasks that `stop` singles out. -/
noncomputable def interrupted (stop : Task → Machine → Prop) (alarm : Runner) : Nat → Runner
  | 0, _ => throw .exhausted
  | fuel + 1, t => fun m =>
      if stop t m then alarm t m else layer fuel (interrupted stop alarm fuel) t m

theorem interrupted_of_not {stop : Task → Machine → Prop} {t : Task} {m : Machine}
    (h : ¬ stop t m) (alarm : Runner) (fuel : Nat) :
    interrupted stop alarm (fuel + 1) t m = layer fuel (interrupted stop alarm fuel) t m := by
  simp [interrupted, h]

def finalReport {α : Type} : EStateM.Result Halt Machine α → Report
  | .ok _ m => m.report
  | .error _ m => m.report

end Eval

instance : Nontrivial Report :=
  ⟨.start true, .start false, by decide⟩

/-- A run of the program comes to `t` with the machine `m`: some alarm there would
change what is reported. -/
def Session.Reaches (s : Session) (fuel : Nat) (program : List Stmt) (t : Task) (m : Machine) :
    Prop :=
  ∃ alarm : Runner,
    Eval.finalReport (Eval.program (Eval.interrupted (fun t' m' => t' = t ∧ m' = m) alarm fuel)
      program (begin s.machine)) ≠
    Eval.finalReport (Eval.program (Eval.perform fuel) program (begin s.machine))

theorem Session.reaches_of_alarm {s : Session} {fuel : Nat} {program : List Stmt} {t : Task}
    {m : Machine}
    (halts : ∀ r : Report, Eval.finalReport (Eval.program (Eval.interrupted
      (fun t' m' => t' = t ∧ m' = m) (fun _ m => .error .exhausted { m with report := r }) fuel)
      program (begin s.machine)) = r) : s.Reaches fuel program t m := by
  obtain ⟨other, differs⟩ := exists_ne
    (Eval.finalReport (Eval.program (Eval.perform fuel) program (begin s.machine)))
  exact ⟨_, (halts other).trans_ne differs⟩

/-- A task looks for the name of a node, in a machine as it is when the task begins
or, for an assignment, when the value is known. -/
inductive Task.LooksUp : Task → Machine → NodeId → Token → Machine → Prop where
  | ref {id name m} : LooksUp (.evaluate (.ref id name)) m id name m
  | this {id keyword m} : LooksUp (.evaluate (.this id keyword)) m id keyword m
  | assign {id name value m} : LooksUp (.evaluate (.assign id name value)) m id name m
  | assigned {id name value m fuel v m'} :
      (Eval.perform fuel).evaluate value m = .ok v m' →
      LooksUp (.evaluate (.assign id name value)) m id name m'
  | bump {id name operator m} : LooksUp (.evaluate (.bump (.ref id name) operator)) m id name m

theorem Task.LooksUp.evaluates {t : Task} {m m' : Machine} {id : NodeId} {name : Token}
    (h : t.LooksUp m id name m') : ∃ e, t = .evaluate e := by
  cases h <;> exact ⟨_, rfl⟩

namespace Correspondence

variable {K : Correspondence} {w : K.World} {place : K.Place}

private theorem Runners.interrupted {stop : Task → Machine → Prop}
    (only : ∀ {t m}, stop t m → ∃ e, t = .evaluate e)
    (never : ∀ {w place γ e e' m m'}, K.At w place γ → K.ExprMatch γ e e' →
      K.MachineMatch w place m m' → ¬ stop (.evaluate e') m') (alarm : Runner) (fuel : Nat) :
    K.Runners (Eval.perform fuel) (Eval.interrupted stop alarm fuel) := by
  induction fuel with
  | zero =>
      exact ⟨fun _ _ => .exhausted, fun _ _ => .exhausted, fun _ _ _ _ _ => .exhausted,
        fun _ _ _ _ => .exhausted⟩
  | succ fuel ih =>
      have layer := ih.layer fuel
      have other (t : Task) (m : Machine) (differs : ∀ e, t ≠ .evaluate e) : ¬ stop t m := by
        intro stopped
        obtain ⟨e, rfl⟩ := only stopped
        exact differs e rfl
      have goes {w place α t m'} {Q : K.World → α → t.Answer → Prop}
          {a : EStateM.Result Halt Machine α} (passes : ¬ stop t m')
          (h : K.OutcomeMatch w place Q a
            (Eval.layer fuel (Eval.interrupted stop alarm fuel) t m')) :
          K.OutcomeMatch w place Q a (Eval.interrupted stop alarm (fuel + 1) t m') := by
        rw [Eval.interrupted_of_not passes]
        exact h
      refine ⟨fun at_ expr m m' machine => ?_, fun at_ stmt m m' machine => ?_,
        fun args _ _ callable hs m m' machine => ?_, fun v _ _ hs m m' machine => ?_⟩
      · exact goes (never at_ expr machine) (layer.evaluate at_ expr machine)
      · exact goes (other (.execute _) m' nofun) (layer.execute at_ stmt machine)
      · exact goes (other (.invoke _ args _) m' nofun) (layer.invoke args callable hs machine)
      · exact goes (other (.display v _) m' nofun) (layer.display v hs machine)

private theorem OutcomeMatch.finalReport {α β : Type} {Q : K.World → α → β → Prop}
    {a : EStateM.Result Halt Machine α} {b : EStateM.Result Halt Machine β}
    (h : K.OutcomeMatch w place Q a b) : K.Reports (Eval.finalReport a) (Eval.finalReport b) := by
  cases h with
  | ok _ machine _ => exact machine.report
  | error _ machine _ => exact machine.report

theorem reaches_evaluate (equal : ∀ {r r'}, K.Reports r r' → r' = r) {γ : K.Context}
    {s : Session} {fuel : Nat} {program : List Stmt} {e : Expr} {m : Machine}
    (machine : K.MachineMatch w K.globals s.machine s.machine)
    (at_ : K.At w K.globals γ) (stmts : K.StmtsMatch γ program program)
    (reaches : s.Reaches fuel program (.evaluate e) m) :
    ∃ w place γ e₀ m₀, K.At w place γ ∧ K.ExprMatch γ e₀ e ∧ K.MachineMatch w place m₀ m := by
  by_contra none
  obtain ⟨alarm, differs⟩ := reaches
  have runs : K.Runners (Eval.perform fuel)
      (Eval.interrupted (fun t' m' => t' = .evaluate e ∧ m' = m) alarm fuel) := by
    refine .interrupted ?_ ?_ alarm fuel
    · rintro t m' ⟨rfl, -⟩
      exact ⟨e, rfl⟩
    · rintro w place γ e₀ e' m₀ m' at_ expr machine ⟨⟨⟩, rfl⟩
      exact none ⟨w, place, γ, e₀, m₀, at_, expr, machine⟩
  exact differs (equal (program_agree runs at_ stmts machine.begin).finalReport)

theorem ExprMatch.looksUp {γ : K.Context} {e₀ e : Expr} {m₀ m m' : Machine} {id : NodeId}
    {name : Token} (expr : K.ExprMatch γ e₀ e) (at_ : K.At w place γ)
    (machine : K.MachineMatch w place m₀ m) (looks : (Task.evaluate e).LooksUp m id name m') :
    (∃ id₀ x₀, K.Refers γ id₀ x₀ id name.lexeme) ∧
      ∃ w' m₁, K.Le w w' ∧ K.MachineMatch w' place m₁ m' := by
  cases looks with
  | ref =>
      cases expr with
      | ref refers _ => exact ⟨⟨_, _, refers⟩, w, m₀, K.le_refl w, machine⟩
  | this =>
      cases expr with
      | this refers _ => exact ⟨⟨_, _, refers⟩, w, m₀, K.le_refl w, machine⟩
  | assign =>
      cases expr with
      | assign refers _ _ => exact ⟨⟨_, _, refers⟩, w, m₀, K.le_refl w, machine⟩
  | bump =>
      cases expr with
      | bump _ operand =>
          cases operand with
          | ref refers _ => exact ⟨⟨_, _, refers⟩, w, m₀, K.le_refl w, machine⟩
  | @assigned _ _ value _ fuel _ _ ends =>
      cases expr with
      | @assign _ _ _ _ _ value₀ _ refers _ matching =>
          have outcome := (Runners.perform K fuel).evaluate at_ matching machine
          rw [ends] at outcome
          generalize (Eval.perform fuel).evaluate value₀ m₀ = first at outcome
          cases outcome with
          | ok le after _ => exact ⟨⟨_, _, refers⟩, _, _, le, after⟩

end Correspondence

end Treewalk
