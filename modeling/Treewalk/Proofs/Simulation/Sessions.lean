import Treewalk.Proofs.Simulation.Run
import Treewalk.Session.Basic

/-!
# Sessions in step

Machines that start with the same heap are in step, and sessions whose machines
are in step run corresponding programs to the same end.
-/

namespace Treewalk.Correspondence

variable {K : Correspondence} {w : K.World} {place : K.Place} {m m' : Machine}

/-! ### Machines before and after a run -/

theorem HeapMatch.start (stores : K.Stores w Heap.start.scopes Heap.start.scopes) :
    K.HeapMatch w .start .start :=
  ⟨stores, .nil, .nil⟩

private theorem HeapMatch.library
    (stores : K.Stores w Heap.withLibrary.scopes Heap.withLibrary.scopes) :
    K.HeapMatch w .withLibrary .withLibrary := by
  have console : K.ObjectMatch w consoleClass.blank consoleClass.blank :=
    ⟨.builtin _ _ _ _, rfl, rfl⟩
  refine ⟨stores, ?_, .cons console .nil⟩
  exact .cons (.classObject (.builtin _ _ _ _)) (.cons (.classObject (.builtin _ _ _ _))
    (.cons (.classObject (.builtin _ _ _ _)) (.cons .native .nil)))

abbrev newHeap (library : Bool) : Heap := if library then .withLibrary else .start

theorem MachineMatch.start {config : Config} {library : Bool} {input : List UInt8} {clock : Clock}
    {t t' : Table} {r r' : Report}
    (stores : K.Stores w (newHeap library).scopes (newHeap library).scopes)
    (tables : K.Tables t t') (reports : K.Reports r r') :
    K.MachineMatch w K.globals
      { (Session.start config library input clock).machine with table := t, report := r }
      { (Session.start config library input clock).machine with table := t', report := r' } where
  heap := by
    cases library with
    | true => exact .library stores
    | false => exact .start stores
  scope := K.globals_first.symm
  scope' := K.globals_second.symm
  tables := tables
  library := rfl
  config := rfl
  report := reports
  input := rfl
  clock := rfl
  deadline := rfl
  depth := rfl
  rendering := rfl

theorem MachineMatch.begin (h : K.MachineMatch w place m m') :
    K.MachineMatch w place (Session.begin m) (Session.begin m') := by
  have clock := h.clock
  have budget : m'.config.budget = m.config.budget := by rw [h.config]
  cases limit : m.config.budget with
  | none =>
      simp only [Session.begin, limit, budget]
      exact { h with deadline := rfl, depth := rfl }
  | some budget' =>
      simp only [Session.begin, limit, budget]
      exact { h with deadline := by simp only [clock], depth := rfl, clock := by simp only [clock] }

private theorem MachineMatch.finish (h : K.MachineMatch w K.globals m m') :
    K.MachineMatch w K.globals (Session.finish m) (Session.finish m') :=
  { h with
    deadline := rfl, scope := K.globals_first.symm, scope' := K.globals_second.symm }

/-! ### Runs -/

structure EndMatch (K : Correspondence) (w : K.World) (e e' : Status × Session) : Prop where
  status : e'.1 = e.1
  machine : ∃ w', K.Le w w' ∧ K.MachineMatch w' K.globals e.2.machine e'.2.machine

theorem EndMatch.report {e e' : Status × Session} (h : K.EndMatch w e e') :
    K.Reports e.2.report e'.2.report := by
  obtain ⟨-, w', -, machine⟩ := h
  exact machine.report

theorem interpret_agree {γ : K.Context} {program program' : List Stmt} {s s' : Session}
    (machine : K.MachineMatch w K.globals s.machine s'.machine)
    (at_ : K.At w K.globals γ) (stmts : K.StmtsMatch γ program program') (fuel : Nat) :
    Option.Rel (K.EndMatch w) (s.interpret fuel program) (s'.interpret fuel program') := by
  have outcome := program_agree (Runners.perform K fuel) at_ stmts machine.begin
  unfold Session.interpret
  generalize Eval.program _ program _ = a at outcome ⊢
  generalize Eval.program _ program' _ = b at outcome ⊢
  cases outcome with
  | ok le machine _ => exact .some ⟨rfl, _, le, machine.finish⟩
  | @error w' _ _ m m' le machine halt =>
      cases halt with
      | exhausted => exact .none
      | failure blames site =>
          have reported := K.reports_failure machine.report blames site
          have ended : K.MachineMatch w' K.globals
              { m with report := m.report.failure _ } { m' with report := m'.report.failure _ } :=
            { machine with report := reported }
          exact .some ⟨rfl, _, le, ended.finish⟩

end Treewalk.Correspondence
