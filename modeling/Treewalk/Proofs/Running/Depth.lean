import Mathlib.Data.List.Chain
import Treewalk.Proofs.Running.Moments

/-!
# Calls in progress

The depth of a machine counts the calls that have begun and not ended.  Here a
run is watched together with the tasks that it is in the middle of, so that the
calls among them can be counted: at every task the depth is their number, and it
never passes the limit.  Whatever a body does, the depth is the same behind it,
also where a loop has reported a failure and gone on.
-/

namespace Treewalk

/-! ### Tasks in progress -/

def Task.isCall : Task → Bool
  | .invoke _ _ _ => true
  | _ => false

/-- The calls among the tasks in progress. -/
def activations (stack : List Task) : Nat := stack.countP Task.isCall

/-- The bodies of routines among the tasks in progress: statements that are executed for
something other than a statement. -/
def bodies : List Task → Nat
  | .execute _ :: .execute s :: stack => bodies (.execute s :: stack)
  | .execute _ :: t :: stack => bodies (t :: stack) + 1
  | _ :: stack => bodies stack
  | [] => 0

/-- The first task may ask for the second one: calls execute their own bodies, and neither
expressions nor texts execute statements. -/
def Task.MayAsk : Task → Task → Prop
  | .invoke c _ _, .execute s => s ∈ c.body
  | .evaluate _, .execute _ => False
  | .display _ _, .execute _ => False
  | _, _ => True

private theorem Task.mayAsk_of_not_execute {t t' : Task} (other : ∀ s, t' ≠ .execute s) :
    t.MayAsk t' := by
  cases t' with
  | execute s => exact absurd rfl (other s)
  | _ => cases t <;> trivial

/-- Every task, innermost first, may have been asked for by the next one. -/
def Stacked (stack : List Task) : Prop := stack.IsChain fun t outer => outer.MayAsk t

private theorem bodies_le {t : Task} {stack : List Task} (h : Stacked (t :: stack)) :
    bodies (t :: stack) ≤ activations stack := by
  induction stack generalizing t with
  | nil => cases t <;> simp [bodies, activations]
  | cons outer stack ih =>
      obtain ⟨asks, rest⟩ := List.isChain_cons_cons.1 h
      have inner := ih rest
      simp only [activations, List.countP_cons] at inner ⊢
      cases t with
      | execute s =>
          cases outer with
          | execute _ | invoke _ _ _ => simpa [bodies, Task.isCall] using inner
          | evaluate _ | display _ _ => exact asks.elim
      | evaluate _ | display _ _ | invoke _ _ _ =>
          simp only [bodies]
          omega

namespace Eval

open Classical in
/-- The evaluator with the tasks in progress, and an alarm in place of the tasks that `stop`
singles out. -/
noncomputable def watched (stop : List Task → Task → Machine → Prop) (alarm : Runner) :
    Nat → List Task → Runner
  | 0, _, _ => throw .exhausted
  | fuel + 1, stack, t => fun m =>
      if stop stack t m then alarm t m
      else layer fuel (watched stop alarm fuel (t :: stack)) t m

variable {stop : List Task → Task → Machine → Prop} {stack : List Task} {t : Task} {m : Machine}

private theorem watched_of (h : stop stack t m) (alarm : Runner) (fuel : Nat) :
    watched stop alarm (fuel + 1) stack t m = alarm t m := by
  simp [watched, h]

theorem watched_of_not (h : ¬ stop stack t m) (alarm : Runner) (fuel : Nat) :
    watched stop alarm (fuel + 1) stack t m =
      layer fuel (watched stop alarm fuel (t :: stack)) t m := by
  simp [watched, h]

end Eval

/-- A run of the program comes to `t` with the machine `m` while it is in the middle of the
tasks `stack`, innermost first: some alarm there would change what is reported. -/
def Session.Comes (s : Session) (fuel : Nat) (program : List Stmt) (stack : List Task) (t : Task)
    (m : Machine) : Prop :=
  ∃ alarm : Runner,
    Eval.finalReport (Eval.program (Eval.watched
      (fun stack' t' m' => stack' = stack ∧ t' = t ∧ m' = m) alarm fuel [])
      program (begin s.machine)) ≠
    Eval.finalReport (Eval.program (Eval.perform fuel) program (begin s.machine))

/-! ### Levels

A level is a number of calls in progress.  Computations keep to it if they leave the machine
where they have found it, whatever their end. -/

namespace Eval

inductive Level {α : Type} (n : Nat) (config : Config) (Q : α → Prop) :
    EStateM.Result Halt Machine α → Prop where
  | ok {a : α} {m : Machine} : m.depth = n → m.config = config → Q a → Level n config Q (.ok a m)
  | error {e : Halt} {m : Machine} : m.depth = n → m.config = config →
      Level n config Q (.error e m)

/-- The members of the family end in the same way, on the level on which they begin. -/
def KeepsLevel {α : Type} (n : Nat) (config : Config) (Q : α → Prop) (x : Bool → Eval α) : Prop :=
  ∀ m, m.depth = n → m.config = config → ∃ r, (∀ i, x i m = r) ∧ Level n config Q r

namespace KeepsLevel

variable {α β : Type} {n : Nat} {config : Config} {P Q : α → Prop} {R : β → Prop}
  {x : Bool → Eval α}

theorem pure {a : α} (answer : Q a) : KeepsLevel n config Q fun _ => Pure.pure a :=
  fun _ depth same => ⟨_, fun _ => rfl, .ok depth same answer⟩

theorem halt (e : Halt) : KeepsLevel n config Q fun _ => throw e :=
  fun _ depth same => ⟨_, fun _ => rfl, .error depth same⟩

theorem mono (h : KeepsLevel n config P x) (weaker : ∀ a, P a → Q a) : KeepsLevel n config Q x := by
  intro m depth same
  obtain ⟨r, all, level⟩ := h m depth same
  refine ⟨r, all, ?_⟩
  cases level with
  | ok depth same answer => exact .ok depth same (weaker _ answer)
  | error depth same => exact .error depth same

theorem bind {f : Bool → α → Eval β} (first : KeepsLevel n config P x)
    (second : ∀ a, P a → KeepsLevel n config R fun i => f i a) :
    KeepsLevel n config R fun i => x i >>= f i := by
  intro m depth same
  obtain ⟨r, all, level⟩ := first m depth same
  cases level with
  | @error e m₁ depth same =>
      exact ⟨.error e m₁, fun i => bind_of_error (all i) (f i), .error depth same⟩
  | @ok a m₁ depth same answer =>
      obtain ⟨r, others, level⟩ := second a answer m₁ depth same
      exact ⟨r, fun i => (bind_of_ok (all i) (f i)).trans (others i), level⟩

theorem step {f : Machine → α × Machine}
    (keeps : ∀ m, Q (f m).1 ∧ (f m).2.depth = m.depth ∧ (f m).2.config = m.config) :
    KeepsLevel n config Q fun _ => modifyGet f :=
  fun m depth same =>
    have ⟨answer, depth', same'⟩ := keeps m
    ⟨_, fun _ => rfl, .ok (depth'.trans depth) (same'.trans same) answer⟩

theorem around {z : Bool → Eval α} {before : Machine → Machine}
    {after : Machine → Machine → Machine} {n' : Nat} (h : KeepsLevel n' config Q x)
    (looks : ∀ i m, z i m = adjusted (after m) (x i (before m)))
    (enters : ∀ m, m.depth = n → (before m).depth = n' ∧ (before m).config = m.config)
    (leaves : ∀ m m', m'.depth = n' → (after m m').depth = n ∧ (after m m').config = m'.config) :
    KeepsLevel n config Q z := by
  intro m depth same
  obtain ⟨depth', same'⟩ := enters m depth
  obtain ⟨r, all, level⟩ := h (before m) depth' (same'.trans same)
  refine ⟨adjusted (after m) r, fun i => by rw [looks, all], ?_⟩
  cases level with
  | ok depth same answer =>
      obtain ⟨depth, same'⟩ := leaves m _ depth
      exact .ok depth (same'.trans same) answer
  | error depth same =>
      obtain ⟨depth, same'⟩ := leaves m _ depth
      exact .error depth (same'.trans same)

theorem inScope (scope : Nat) (h : KeepsLevel n config Q x) :
    KeepsLevel n config Q fun i => Eval.inScope scope (x i) :=
  h.around (fun i m => inScope_eq scope (x i) m) (fun _ depth => ⟨depth, rfl⟩)
    fun _ _ depth => ⟨depth, rfl⟩

private theorem whileRendering (place : Nat) (h : KeepsLevel n config Q x) :
    KeepsLevel n config Q fun i => Eval.whileRendering place (x i) :=
  h.around (fun i m => whileRendering_eq place (x i) m) (fun _ depth => ⟨depth, rfl⟩)
    fun _ _ depth => ⟨depth, rfl⟩

private theorem asCall (h : KeepsLevel (n + 1) config Q x) :
    KeepsLevel n config Q fun i => Eval.asCall (x i) :=
  h.around (fun i m => asCall_eq (x i) m) (fun _ depth => ⟨congrArg (· + 1) depth, rfl⟩)
    fun _ _ depth => ⟨congrArg (· - 1) depth, rfl⟩

private theorem writeName (id : NodeId) (name : Token) (value : Value) :
    KeepsLevel n config (fun _ => True) fun _ => Eval.writeName id name value := by
  intro m depth same
  refine ⟨_, fun _ => writeName_eq id name value m, ?_⟩
  split
  · exact .error depth same
  · exact .ok depth same trivial
  · exact .error depth same

private theorem caught {P : Completion → Prop} {Q : LoopFlow → Prop} {run : Bool → Runner}
    {body : Stmt}
    (h : KeepsLevel n config P fun i => (run i).execute body) (flows : ∀ c, P c → Q (.of c))
    (again : Q .again) : KeepsLevel n config Q fun i => loopBody (run i) body := by
  intro m depth same
  obtain ⟨r, all, level⟩ := h m depth same
  refine ⟨caughtEnd r, fun i => congrArg caughtEnd (all i), ?_⟩
  cases level with
  | ok depth same answer => exact .ok depth same (flows _ answer)
  | @error e m₁ depth same =>
      cases e with
      | exhausted => exact .error depth same
      | failure f =>
          simp only [caughtEnd]
          split
          · exact .ok depth same again
          · exact .error depth same

end KeepsLevel

private def level (n : Nat) (config : Config) : Discipline Bool where
  toRegime := .lax .any
  Holds _ Q x := KeepsLevel n config Q x
  pure := .pure
  fail _ := .halt _
  escape _ := .halt _
  weaken h _ weaker := h.mono weaker
  bind first second _ := first.bind second
  get _ h m depth same := h m m.heap.of_any m depth same
  step _ h := .step fun m =>
    have ⟨answer, advances⟩ := h m m.heap.of_any
    ⟨answer, advances.depth, advances.config⟩
  print _ _ := .step fun _ => ⟨trivial, rfl, rfl⟩
  prompt _ _ := .step fun _ => ⟨trivial, rfl, rfl⟩
  writeName := .writeName _ _ _
  declareName := .step fun _ => ⟨trivial, rfl, rfl⟩
  defineClass _ _ _ _ depth same := ⟨_, fun _ => rfl, .ok depth same trivial⟩
  whileRendering := .whileRendering
  opened h m depth same := h.inScope _ { m with heap := _ } depth same
  entered _ _ _ _ _ h m depth same := h.inScope _ { m with heap := _ } depth same
  caught := .caught

/-! ### Watching a run -/

end Eval

/-- Statements are left as their text says. -/
private def Task.Meant : (t : Task) → t.Answer → Prop
  | .execute s => (·.Within s.escapes)
  | _ => fun _ => True

/-- The depth is the number of calls in progress, and these are no more than allowed. -/
structure Task.InOrder (config : Config) (stack : List Task) (t : Task) (m : Machine) : Prop where
  stacked : Stacked (t :: stack)
  depth : m.depth = activations stack
  bounded : activations stack ≤ config.maxDepth
  config : m.config = config

namespace Eval

variable {config : Config} {stop : List Task → Task → Machine → Prop} {alarm : Runner}

/-- A run that is watched, and the same run left alone. -/
noncomputable def both (stop : List Task → Task → Machine → Prop) (alarm : Runner) (fuel : Nat)
    (stack : List Task) : Bool → Runner
  | true => watched stop alarm fuel stack
  | false => perform fuel

theorem invoke_of_time {m m' : Machine} (time : checkTime m = .ok () m') (run : Runner)
    (c : Callable) (args : List Value) (site : Position) :
    invoke run c args site m =
      if m'.config.maxDepth ≤ m'.depth then .error (.failure ⟨.callDepth, site⟩) m'
      else asCall (call run c args site) m' := by
  refine (bind_of_ok time _).trans ?_
  change (if m'.config.maxDepth ≤ m'.depth then fail .callDepth site
    else asCall (call run c args site)) m' = _
  split <;> rfl

theorem level_checkTime (n : Nat) (config : Config) :
    KeepsLevel n config (fun _ => True) fun _ => checkTime :=
  Discipline.checkTime (D := level n config)

private theorem keepsLevel_invoke {n : Nat} {run : Bool → Runner} {c : Callable} {args : List Value}
    {site : Position}
    (inside : n < config.maxDepth →
      KeepsLevel (n + 1) config (fun _ => True) fun i => call (run i) c args site) :
    KeepsLevel n config (fun _ => True) fun i => invoke (run i) c args site := by
  intro m depth same
  obtain ⟨r, time, ends⟩ := level_checkTime n config m depth same
  cases ends with
  | @error e m' depth same =>
      exact ⟨.error e m', fun i => bind_of_error (time i) _, .error depth same⟩
  | @ok _ m' depth same _ =>
      have goes (i : Bool) := invoke_of_time (time i) (run i) c args site
      by_cases full : m'.config.maxDepth ≤ m'.depth
      · exact ⟨.error (.failure ⟨.callDepth, site⟩) m', fun i => (goes i).trans (if_pos full),
          .error depth same⟩
      · have below : n < config.maxDepth := by
          rw [← depth, ← same]
          exact Nat.not_le.1 full
        obtain ⟨r, all, ends⟩ := (inside below).asCall m' depth same
        exact ⟨r, fun i => ((goes i).trans (if_neg full)).trans (all i), ends⟩

private theorem keepsLevel_both
    (never : ∀ {stack t m}, Task.InOrder config stack t m → ¬ stop stack t m) (fuel : Nat) :
    ∀ {stack : List Task} {t : Task}, Stacked (t :: stack) →
      activations stack ≤ config.maxDepth →
      KeepsLevel (activations stack) config t.Meant fun i => both stop alarm fuel stack i t := by
  induction fuel with
  | zero =>
      intro stack t _ _ m depth same
      refine ⟨.error .exhausted m, fun i => ?_, .error depth same⟩
      cases i <;> rfl
  | succ fuel ih =>
      intro stack t stacked bounded
      let D := level (activations (t :: stack)) config
      let run := both stop alarm fuel (t :: stack)
      have asked (t' : Task) (asks : t.MayAsk t')
          (le : activations (t :: stack) ≤ config.maxDepth) :=
        ih (t := t') (List.isChain_cons_cons.2 ⟨asks, stacked⟩) le
      have serves (le : activations (t :: stack) ≤ config.maxDepth) : D.Serves run :=
        ⟨fun _ => asked (.invoke _ _ _) (Task.mayAsk_of_not_execute nofun) le,
          asked (.display _ _) (Task.mayAsk_of_not_execute nofun) le⟩
      have layer : KeepsLevel (activations stack) config t.Meant fun i =>
          layer fuel (run i) t := by
        cases t with
        | evaluate e =>
            exact Discipline.evaluate (serves bounded) (fun _ _ => trivial) fun e' _ =>
              asked (.evaluate e') trivial bounded
        | execute s =>
            have runs : D.Runs run :=
              ⟨serves bounded, fun {e} _ => asked (.evaluate e) trivial bounded,
                fun {s'} _ => asked (.execute s') trivial bounded⟩
            exact Discipline.execute runs.toServes (fun _ _ => trivial)
              (fun _ _ => runs.evaluate fun _ _ => trivial)
              (fun _ _ => runs.execute fun _ _ => trivial)
              fun _ => .constant runs (.halt _) fuel
        | display v site => exact Discipline.display (serves bounded)
        | invoke c args site =>
            refine keepsLevel_invoke fun below => ?_
            have one : activations (.invoke c args site :: stack) = activations stack + 1 :=
              List.countP_cons_of_pos rfl
            have below : activations (.invoke c args site :: stack) ≤ config.maxDepth :=
              one.trans_le below
            rw [← one]
            exact Discipline.callBody (serves below) trivial trivial c.of_any
              (fun s mem => asked (.execute s) mem below) fun _ _ _ => trivial
      intro m depth same
      obtain ⟨r, all, ends⟩ := layer m depth same
      refine ⟨r, fun i => ?_, ends⟩
      cases i with
      | false => exact all false
      | true =>
          have passes := never ⟨stacked, depth, bounded, same⟩
          exact (watched_of_not passes alarm fuel).trans (all true)

private theorem keepsLevel_program {run : Bool → Runner} {program : List Stmt}
    (each : ∀ s ∈ program, (level 0 config).Executes run s) :
    KeepsLevel 0 config (fun _ => True) fun i => Eval.program (run i) program :=
  Discipline.program (D := level 0 config) program not_false (fun _ _ => trivial) each

end Eval

/-! ### Calls that are not allowed -/

namespace Eval

private def Shallow {α : Type} (x : Eval α) : Prop :=
  ∀ m m' f, x m = .error (.failure f) m' → f.cause ≠ .callDepth

namespace Shallow

variable {α β : Type}

theorem pure (a : α) : Shallow (Pure.pure a) := by
  intro m m' f ends
  cases ends

theorem halted : Shallow (throw .exhausted : Eval α) := by
  intro m m' f ends
  cases ends

theorem fail {cause : Cause} (other : cause ≠ .callDepth) (site : Position) :
    Shallow (Eval.fail cause site : Eval α) := by
  intro m m' f ends
  cases ends
  exact other

theorem step (f : Machine → α × Machine) : Shallow (modifyGet f) := by
  intro m m' f ends
  cases ends

theorem bind {x : Eval α} {f : α → Eval β} (first : Shallow x) (second : ∀ a, Shallow (f a)) :
    Shallow (x >>= f) := by
  intro m m' failure ends
  cases here : x m with
  | error e m₁ =>
      rw [bind_of_error here] at ends
      cases ends
      exact first m m' failure here
  | ok a m₁ =>
      rw [bind_of_ok here] at ends
      exact second a m₁ m' failure ends

theorem get {f : Machine → Eval α} (h : ∀ m, Shallow (f m)) : Shallow (MonadState.get >>= f) :=
  fun m => h m m

theorem mapM {f : α → Eval β} (h : ∀ a, Shallow (f a)) (as : List α) : Shallow (as.mapM f) := by
  induction as with
  | nil => exact .pure []
  | cons a as ih =>
      rw [List.mapM_cons]
      exact (h a).bind fun b => ih.bind fun bs => .pure _

private theorem asCall {x : Eval α} (h : Shallow x) : Shallow (Eval.asCall x) := by
  intro m m' f ends
  rw [asCall_eq] at ends
  cases here : x { m with depth := m.depth + 1 } with
  | ok a m₁ =>
      rw [here] at ends
      cases ends
  | error e m₁ =>
      rw [here] at ends
      cases ends
      exact h _ _ f here

private theorem checkTime : Shallow Eval.checkTime := by
  refine .get fun m => ?_
  split
  · exact .pure _
  · refine .bind (.step _) fun reading => ?_
    split
    · exact .fail (by nofun) _
    · exact .pure _

private theorem makeText (text : String) (site : Position) : Shallow (Eval.makeText text site) := by
  refine .get fun m => ?_
  split
  · exact .step _
  · exact .fail (by nofun) site

private theorem makeArray (elements : Array Value) (site : Position) :
    Shallow (Eval.makeArray elements site) := by
  refine .get fun m => ?_
  split
  · exact .step _
  · exact .fail (by nofun) site

private theorem receiver (this : Option Value) (site : Position) :
    Shallow (Eval.receiver this site) := by
  unfold Eval.receiver
  split
  · refine .get fun m => ?_
    split
    · exact .pure _
    · exact .fail (by nofun) site
  · exact .fail (by nofun) site

private theorem callback (method : String) (args : List Value) (site : Position) :
    Shallow (Eval.callback method args site) := by
  refine .get fun m => ?_
  split
  · exact .pure _
  · exact .fail (by nofun) site

/-! What follows asks for no task, or stops where it asks for one. -/

private theorem textOr (fallback : String) (args : List Value) (site : Position) :
    Shallow (Eval.textOr halt fallback args site) := by
  unfold Eval.textOr
  split
  · exact .pure _
  · exact .pure _
  · exact .halted

private theorem displayAll (site : Position) (values : List Value) :
    Shallow (Eval.displayAll halt site values) :=
  .mapM (fun _ => .halted) values

private theorem mapElements (c : Callable) (site : Position) (elements : List Value) :
    Shallow (Eval.mapElements halt c site elements) :=
  .mapM (fun _ => .halted) _

private theorem callBuiltin (b : Builtin) (this : Option Value) (args : List Value)
    (site : Position) :
    Shallow (Eval.callBuiltin halt b this args site) := by
  have received {f : Nat × Object → Eval Value} (h : ∀ r, Shallow (f r)) :
      Shallow (Eval.receiver this site >>= f) :=
    (receiver this site).bind h
  cases b with
  | textNew => exact received fun _ => (textOr _ _ _).bind fun _ => .bind (.step _) fun _ => .pure _
  | textLength | textToString | arrayLength => exact received fun _ => .pure _
  | textSplit =>
      have pieces (r : Nat × Object) (separator : String) := mapM (fun piece =>
        makeText (String.ofList piece) site) (Text.pieces separator.toList
          r.2.content.textOrEmpty.toList)
      refine received fun r => ?_
      cases args with
      | nil => exact (pieces r _).bind fun _ => makeArray _ _
      | cons v rest => exact .bind .halted fun _ => (pieces r _).bind fun _ => makeArray _ _
  | textTrim => exact received fun _ => makeText _ _
  | arrayNew => exact received fun _ => .bind (.step _) fun _ => .pure _
  | arrayPush =>
      refine received fun _ => .bind (.step _) fun size => ?_
      cases size with
      | none => exact .fail (by nofun) site
      | some size => exact .pure _
  | arrayJoin =>
      exact received fun _ => (textOr _ _ _).bind fun _ => (displayAll _ _).bind fun _ =>
        makeText _ _
  | arrayToString => exact received fun _ => .bind .halted fun _ => makeText _ _
  | arrayMap =>
      exact received fun _ => (callback _ _ _).bind fun _ => (mapElements _ _ _).bind fun _ =>
        makeArray _ _
  | arrayForEach =>
      exact received fun _ => (callback _ _ _).bind fun _ => (mapElements _ _ _).bind fun _ =>
        .pure _
  | arrayRemove =>
      refine received ?_
      rintro ⟨place, o⟩
      dsimp only
      split
      · exact .fail (by nofun) site
      · exact .fail (by nofun) site
      · exact .get fun m => .bind (.step _) fun _ => .pure _
  | arrayFlatten => exact received fun _ => .get fun m => .bind (.step _) fun _ => .pure _
  | math f => exact .pure _
  | consolePrint => exact (displayAll _ _).bind fun _ => .bind (.step _) fun _ => .pure _
  | consoleRead =>
      cases args with
      | nil => exact .bind (.step _) fun _ => makeText _ _
      | cons v rest =>
          exact .bind .halted fun _ => .bind (.step _) fun _ => .bind (.step _) fun _ =>
            makeText _ _
  | clock => exact .bind (.step _) fun _ => .pure _

private theorem callRoutine (routine : Routine) (closure : Nat) (args : List Value) :
    Shallow (Eval.callRoutine halt routine closure args) := by
  have body (scope : Nat) : Shallow (Eval.inScope scope (sequence halt routine.body)) := by
    intro m m' f ends
    rw [inScope_eq] at ends
    cases statements : routine.body with
    | nil => rw [statements] at ends; cases ends
    | cons s rest => rw [statements] at ends; cases ends
  refine .bind (.step _) fun scope => .bind (.step _) fun _ => (body scope).bind fun c => ?_
  cases c with
  | normal | ret => exact .pure _
  | brk keyword => exact .fail (by nofun) _
  | cont keyword => exact .fail (by nofun) _

private theorem call (c : Callable) (args : List Value) (site : Position) :
    Shallow (Eval.call halt c args site) := by
  cases c with
  | native b this => exact callBuiltin b this args site
  | function routine closure => exact callRoutine routine closure args
  | classObject c =>
      refine .bind (.step _) fun object => ?_
      cases found : c.initializer? with
      | none => exact .bind (.pure ()) fun _ => .pure _
      | some code =>
          cases code with
          | builtin b => exact (callBuiltin b _ args site).bind fun _ => .pure _
          | written routine scope =>
              exact .bind (.bind (.step _) fun closure => callRoutine routine closure args)
                fun _ => .pure _

end Shallow

/-- The call itself fails for the number of calls: it does, whatever becomes of the tasks that
it asks for. -/
def Overflows (c : Callable) (args : List Value) (site : Position) (m : Machine) : Prop :=
  ∀ run, ∃ m', invoke run c args site m = .error (.failure ⟨.callDepth, site⟩) m'

theorem checkTime_keeps {m m' : Machine} (time : checkTime m = .ok () m') :
    m'.depth = m.depth ∧ m'.config = m.config := by
  obtain ⟨r, all, ends⟩ := level_checkTime m.depth m.config m rfl rfl
  cases (all true).symm.trans time
  cases ends with
  | ok depth config _ => exact ⟨depth, config⟩

private theorem overflows_iff (c : Callable) (args : List Value) (site : Position) (m : Machine) :
    Overflows c args site m ↔
      (∃ m', checkTime m = .ok () m') ∧ m.config.maxDepth ≤ m.depth := by
  constructor
  · intro overflows
    obtain ⟨m', fails⟩ := overflows halt
    cases time : checkTime m with
    | error e m₁ =>
        cases (bind_of_error time _).symm.trans fails
        exact absurd rfl (Shallow.checkTime _ _ _ time)
    | ok _ m₁ =>
        obtain ⟨depth, config⟩ := checkTime_keeps time
        rw [invoke_of_time time] at fails
        split at fails
        next full => exact ⟨⟨m₁, rfl⟩, by rwa [← depth, ← config]⟩
        next => exact absurd rfl ((Shallow.call c args site).asCall _ _ _ fails)
  · rintro ⟨⟨m₁, time⟩, full⟩ run
    obtain ⟨depth, config⟩ := checkTime_keeps time
    rw [← depth, ← config] at full
    exact ⟨m₁, (invoke_of_time time run c args site).trans (if_pos full)⟩

end Eval

namespace Session

variable {s s' : Session} {fuel : Nat} {program : List Stmt} {stack : List Task} {t : Task}
  {m : Machine}

private theorem begin_level (m : Machine) : (begin m).depth = 0 ∧ (begin m).config = m.config := by
  unfold begin
  split <;> exact ⟨rfl, rfl⟩

theorem level_program (stop : List Task → Task → Machine → Prop)
    (never : ∀ {stack t m}, Task.InOrder s.machine.config stack t m → ¬ stop stack t m)
    (alarm : Runner) (fuel : Nat) (program : List Stmt) :
    ∃ r, (∀ i, Eval.program (Eval.both stop alarm fuel [] i) program (begin s.machine) = r) ∧
      Eval.Level 0 s.machine.config (fun _ => True) r := by
  obtain ⟨depth, config⟩ := begin_level s.machine
  refine Eval.keepsLevel_program (fun s mem => ?_) _ depth config
  exact Eval.keepsLevel_both never fuel (t := .execute s) (.singleton _) (Nat.zero_le _)

private theorem Comes.inOrder (comes : s.Comes fuel program stack t m) :
    t.InOrder s.machine.config stack m := by
  by_contra disorder
  obtain ⟨alarm, differs⟩ := comes
  obtain ⟨r, all, -⟩ := level_program (s := s)
    (fun stack' t' m' => stack' = stack ∧ t' = t ∧ m' = m)
    (fun {stack t m} inOrder stopped => by
      obtain ⟨rfl, rfl, rfl⟩ := stopped
      exact disorder inOrder) alarm fuel program
  exact differs (congrArg Eval.finalReport ((all true).trans (all false).symm))

private theorem interpret_depth {status : Status}
    (ends : s.interpret fuel program = some (status, s')) : s'.machine.depth = 0 := by
  obtain ⟨r, all, level⟩ := level_program (s := s) (fun _ _ _ => False)
    (fun _ => not_false) Eval.halt fuel program
  have ran : Eval.program (Eval.perform fuel) program (begin s.machine) = r := all false
  unfold interpret at ends
  rw [ran] at ends
  cases level with
  | ok depth =>
      cases ends
      exact depth
  | @error e m depth =>
      cases e with
      | exhausted => cases ends
      | failure f =>
          cases ends
          exact depth

/-- At every task of every run the depth is the number of calls in progress.  These are no more
than the limit, and neither are the bodies of routines in progress.  A call fails for its depth
exactly when as many calls as the limit allows are in progress and the time is not up.  However
a run ends, no call is left in progress. -/
theorem depth_eq_activations (s : Session) (fuel : Nat) (program : List Stmt) :
    (∀ stack t m, s.Comes fuel program stack t m →
      Stacked (t :: stack) ∧ m.depth = activations stack ∧ m.config = s.machine.config ∧
      activations stack ≤ s.machine.config.maxDepth ∧
      bodies (t :: stack) ≤ s.machine.config.maxDepth ∧
      ∀ c args site, t = .invoke c args site →
        (Eval.Overflows c args site m ↔
          activations stack = s.machine.config.maxDepth ∧
            ∃ m', Eval.checkTime m = .ok () m')) ∧
    ∀ status s', s.interpret fuel program = some (status, s') → s'.machine.depth = 0 := by
  refine ⟨fun stack t m comes => ?_, fun status s' ends => interpret_depth ends⟩
  obtain ⟨stacked, depth, bounded, config⟩ := comes.inOrder
  refine ⟨stacked, depth, config, bounded, (bodies_le stacked).trans bounded, ?_⟩
  rintro c args site -
  rw [Eval.overflows_iff, depth, config, and_comm]
  have full : s.machine.config.maxDepth ≤ activations stack ↔
      activations stack = s.machine.config.maxDepth := by omega
  rw [full]

private theorem comes_of_alarm
    (halts : ∀ r : Report, Eval.finalReport (Eval.program (Eval.watched
      (fun stack' t' m' => stack' = stack ∧ t' = t ∧ m' = m)
      (fun _ m => .error .exhausted { m with report := r }) fuel [])
      program (begin s.machine)) = r) : s.Comes fuel program stack t m := by
  obtain ⟨other, differs⟩ := exists_ne
    (Eval.finalReport (Eval.program (Eval.perform fuel) program (begin s.machine)))
  exact ⟨_, (halts other).trans_ne differs⟩

def calledAt (k : Token) (body : List Stmt) : Expr :=
  .call (.lambda ⟨none, [], body, false, k⟩) k []

/-- Where one call is allowed, the call of a function inside another one fails. -/
theorem depth_eq_activations_nested :
    let s := start { Config.standard with maxDepth := 1 } false [] .ticking
    let k : Token := ⟨.keyword .kwLambda, "lambda", .start⟩
    let inner := calledAt k []
    let outer := calledAt k [.expression inner]
    let first : Callable := .function ⟨none, [], [.expression inner], false, k⟩ Heap.globals
    let second : Callable := .function ⟨none, [], [], false, k⟩ 1
    let stack : List Task := [.evaluate inner, .execute (.expression inner),
      .invoke first [] k.position, .evaluate outer, .execute (.expression outer)]
    ∃ m, s.Comes 6 [.expression outer] stack (.invoke second [] k.position) m ∧
      m.depth = 1 ∧ activations stack = 1 ∧
      bodies (.invoke second [] k.position :: stack) = 1 ∧
      Eval.Overflows second [] k.position m := by
  intro s k inner outer first second stack
  let m₀ := begin s.machine
  let m₁ : Machine := { m₀ with heap := (m₀.heap.addCallable first).2 }
  let m₂ : Machine := { m₁ with
    depth := 1, scope := 1, heap := (m₁.heap.addScope Heap.globals).2 }
  let m₃ : Machine := { m₂ with heap := (m₂.heap.addCallable second).2 }
  have comes : s.Comes 6 [.expression outer] stack (.invoke second [] k.position) m₃ := by
    refine comes_of_alarm fun r => ?_
    let stop (stack' : List Task) (t' : Task) (m' : Machine) : Prop :=
      stack' = stack ∧ t' = .invoke second [] k.position ∧ m' = m₃
    let alarm : Runner := fun _ m => .error .exhausted { m with report := r }
    have pass {stack' : List Task} {t' : Task}
        (other : ¬ (stack' = stack ∧ t' = .invoke second [] k.position)) (m' : Machine)
        (fuel : Nat) : Eval.watched stop alarm (fuel + 1) stack' t' m' =
          Eval.layer fuel (Eval.watched stop alarm fuel (t' :: stack')) t' m' :=
      Eval.watched_of_not (fun h => other ⟨h.1, h.2.1⟩) alarm fuel
    -- The inner call, from the halt outwards.
    have stopped : Eval.watched stop alarm 1 stack (.invoke second [] k.position) m₃ =
        .error .exhausted { m₃ with report := r } :=
      Eval.watched_of ⟨rfl, rfl, rfl⟩ alarm 0
    have written : Eval.watched stop alarm 1 stack (.evaluate (.lambda ⟨none, [], [], false, k⟩))
        m₂ = .ok (.callable 1) m₃ :=
      pass (fun h => by cases h.2) m₂ 0
    have called : Eval.watched stop alarm 2 stack.tail (.evaluate inner) m₂ =
        .error .exhausted { m₃ with report := r } := by
      rw [pass fun h => by cases h.2]
      exact (Eval.bind_of_ok written _).trans stopped
    have body : Eval.watched stop alarm 3 stack.tail.tail (.execute (.expression inner)) m₂ =
        .error .exhausted { m₃ with report := r } := by
      rw [pass fun h => by cases h.2]
      exact Eval.bind_of_error called _
    -- The outer call, which is back at the top when the halt has gone through it.
    have statements : Eval.sequence (Eval.watched stop alarm 3 stack.tail.tail)
        [.expression inner] m₂ = .error .exhausted { m₃ with report := r } :=
      Eval.bind_of_error body _
    have inside : Eval.call (Eval.watched stop alarm 3 stack.tail.tail) first [] k.position
        { m₁ with depth := 1 } =
        .error .exhausted { m₃ with report := r, scope := Heap.globals } :=
      Eval.bind_of_error (Eval.inScope_error (m := { m₂ with scope := Heap.globals }) statements) _
    have entered : Eval.watched stop alarm 4 stack.tail.tail.tail (.invoke first [] k.position) m₁ =
        .error .exhausted { m₃ with report := r, depth := 0, scope := Heap.globals } := by
      rw [pass fun h => by simp [stack] at h]
      have time : Eval.checkTime m₁ = .ok () m₁ := rfl
      refine (Eval.invoke_of_time time _ first [] k.position).trans ?_
      exact congrArg (Eval.adjusted _) inside
    have written' : Eval.watched stop alarm 4 stack.tail.tail.tail
        (.evaluate (.lambda ⟨none, [], [.expression inner], false, k⟩)) m₀ =
        .ok (.callable 0) m₁ :=
      pass (fun h => by cases h.2) m₀ 3
    have called' : Eval.watched stop alarm 5 [.execute (.expression outer)] (.evaluate outer) m₀ =
        .error .exhausted { m₃ with report := r, depth := 0, scope := Heap.globals } := by
      rw [pass fun h => by cases h.2]
      exact (Eval.bind_of_ok written' _).trans entered
    have top : Eval.watched stop alarm 6 [] (.execute (.expression outer)) m₀ =
        .error .exhausted { m₃ with report := r, depth := 0, scope := Heap.globals } := by
      rw [pass fun h => by cases h.2]
      exact Eval.bind_of_error called' _
    exact congrArg Eval.finalReport (Eval.bind_of_error top _)
  obtain ⟨-, depth, -, -, -, overflows⟩ := (depth_eq_activations s 6 _).1 _ _ _ comes
  refine ⟨m₃, comes, depth, rfl, rfl, (overflows second [] _ rfl).2 ⟨rfl, m₃, rfl⟩⟩

end Session

end Treewalk
