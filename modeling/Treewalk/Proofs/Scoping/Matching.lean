import Treewalk.Proofs.Scoping.Charts
import Treewalk.Proofs.Scoping.Renaming
import Treewalk.Proofs.Simulation.Sessions

/-!
# Renamed programs correspond to the original

If a scheme allows for a renaming at every use and every declaration of a
program without faults, the program and the renamed one correspond.
-/

namespace Treewalk

private theorem Correspondence.StmtMatch.stays {K : Correspondence} {γ γ' : K.Context} {s s' : Stmt}
    (h : K.StmtMatch γ s s' γ') (plain : s.Plain) : γ' = γ := by
  cases h with
  | declare => cases plain
  | classDecl => cases plain
  | @function _ _ r _ x label =>
      have unnamed : r.name = none := plain
      simp [Routine.label, unnamed] at label
  | expression | block | choice | loop | stepped | repetition | ret | brk | cont => rfl

theorem Correspondence.StmtMatch.step {K : Correspondence} {γ γ' : K.Context} {s s' : Stmt}
    {i i' : Expr}
    (h : K.StmtMatch γ (.block [s, .expression i]) (.block [s', .expression i']) γ')
    (plain : s.Plain) :
    K.StmtMatch γ (.block [.expression i]) (.block [.expression i']) γ := by
  cases h with
  | block opens stmts =>
      cases stmts with
      | cons body rest =>
          obtain rfl := body.stays plain
          exact .block opens rest

/-- The events have no fault, and the scheme allows for what a renaming does at
each of them. -/
structure Scheme.Follows (S : Scheme) (ρ : Renaming) (events : List Event) : Prop where
  faultless : ∀ ev ∈ events, ev.fault? = none
  refers : ∀ {sort id name γ}, .use sort id name γ ∈ events → γ.Sound events →
    S.Refers γ id name.lexeme id (ρ.name γ.declared sort id name).lexeme
  declares : ∀ {isVariable name γ}, .declare isVariable name γ ∈ events → γ.Sound events →
    γ.Awaits [name] → S.Names γ.outline? name.lexeme (ρ.token isVariable name).lexeme

section

variable {S : Scheme} {ρ : Renaming} {events : List Event}

open Scheme (correspondence)

theorem tokenMatch_refl (t : Token) : (correspondence S).TokenMatch t t := ⟨rfl, rfl, rfl⟩

theorem Setting.awaits_push (γ : Setting) (declared : List Token) :
    (γ.push declared).Awaits declared := by
  rintro _ ⟨⟩
  exact List.Subset.refl _

theorem Scheme.Follows.declare (follows : S.Follows ρ events) {isVariable : Bool} {name : Token}
    {γ : Setting} (event : .declare isVariable name γ ∈ events) (sound : γ.Sound events)
    (awaits : γ.Awaits [name]) :
    S.Declares γ name.lexeme (ρ.token isVariable name).lexeme (γ.introduce name) :=
  ⟨follows.declares event sound awaits, fun covers bound => covers.introduce bound⟩

private theorem params_match (follows : S.Follows ρ events) {params : List Token} {γ : Setting}
    (sub : paramEvents params γ ⊆ events) (sound : γ.Sound events) (awaits : γ.Awaits params) :
    (correspondence S).ParamsMatch γ params (params.map ρ.declared)
      (params.foldl Setting.introduce γ) := by
  induction params generalizing γ with
  | nil => exact .nil
  | cons p params ih =>
      obtain ⟨event, rest⟩ := List.cons_subset.1 sub
      obtain ⟨first, others⟩ := awaits.head
      refine .cons (follows.declare event sound first) (ih rest (sound.introduce first) ?_)
      exact others.of_outline (γ.alike_introduce p).outline?

variable (follows : S.Follows ρ events)

include follows

set_option linter.unusedSectionVars false

mutual

theorem Expr.matches : ∀ (e : Expr) {γ : Setting}, e.Shaped → e.events γ ⊆ events →
    γ.Sound events → (correspondence S).ExprMatch γ e (e.rename ρ γ.declared)
  | .literal _ token, _, _, _, _ => .literal (tokenMatch_refl token)
  | .array bracket elements, _, shaped, sub, sound =>
      .array (tokenMatch_refl bracket) (Expr.matchesAll elements shaped sub sound)
  | .grouping inner, _, shaped, sub, sound => .grouping (inner.matches shaped sub sound)
  | .unary operator right, _, shaped, sub, sound =>
      .unary (tokenMatch_refl operator) (right.matches shaped sub sound)
  | .binary left operator right, _, shaped, sub, sound =>
      have sub := List.append_subset.1 sub
      .binary (tokenMatch_refl operator) (left.matches shaped.1 sub.1 sound)
        (right.matches shaped.2 sub.2 sound)
  | .logical left operator right, _, shaped, sub, sound =>
      have sub := List.append_subset.1 sub
      .logical (tokenMatch_refl operator) (left.matches shaped.1 sub.1 sound)
        (right.matches shaped.2 sub.2 sound)
  | .ternary condition question thenBranch _ elseBranch, _, shaped, sub, sound =>
      have sub := List.append_subset.1 sub
      have branches := List.append_subset.1 sub.2
      .ternary (tokenMatch_refl question) (condition.matches shaped.1 sub.1 sound)
        (thenBranch.matches shaped.2.1 branches.1 sound)
        (elseBranch.matches shaped.2.2 branches.2 sound)
  | .bump operand operator, _, shaped, sub, sound =>
      .bump (tokenMatch_refl operator) (operand.matches shaped sub sound)
  | .ref id name, γ, _, sub, sound =>
      have event : .use .read id name γ ∈ events := sub List.mem_cons_self
      .ref (follows.refers event sound) (ρ.position_used _ _ _).symm
  | .assign id name value, γ, shaped, sub, sound =>
      have sub := List.append_subset.1 sub
      have event : .use .write id name γ ∈ events := sub.2 List.mem_cons_self
      .assign (follows.refers event sound) (ρ.position_used _ _ _).symm
        (value.matches shaped sub.1 sound)
  | .get object name, _, shaped, sub, sound =>
      .get (tokenMatch_refl name) (object.matches shaped sub sound)
  | .set object name value, _, shaped, sub, sound =>
      have sub := List.append_subset.1 sub
      .set (tokenMatch_refl name) (object.matches shaped.1 sub.1 sound)
        (value.matches shaped.2 sub.2 sound)
  | .subscript object index bracket, _, shaped, sub, sound =>
      have sub := List.append_subset.1 sub
      .subscript (tokenMatch_refl bracket) (object.matches shaped.1 sub.1 sound)
        (index.matches shaped.2 sub.2 sound)
  | .call callee paren arguments, _, shaped, sub, sound =>
      have sub := List.append_subset.1 sub
      .call (tokenMatch_refl paren) (callee.matches shaped.1 sub.1 sound)
        (Expr.matchesAll arguments shaped.2 sub.2 sound)
  | .this id keyword, γ, _, sub, sound =>
      have event : .use .this id keyword γ ∈ events := sub List.mem_cons_self
      .this (follows.refers event sound) rfl
  | .lambda routine, _, shaped, sub, sound => .lambda (routine.matches shaped sub sound)

theorem Expr.matchesAll : ∀ (es : List Expr) {γ : Setting}, Expr.ShapedAll es →
    Expr.eventsAll es γ ⊆ events → γ.Sound events →
    (correspondence S).ExprsMatch γ es (Expr.renameAll ρ γ.declared es)
  | [], _, _, _, _ => .nil
  | e :: es, _, shaped, sub, sound =>
      have sub := List.append_subset.1 sub
      .cons (e.matches shaped.1 sub.1 sound) (Expr.matchesAll es shaped.2 sub.2 sound)

theorem Expr.matchesOpt : ∀ (e : Option Expr) {γ : Setting}, Expr.ShapedOpt e →
    Expr.eventsOpt e γ ⊆ events → γ.Sound events →
    (correspondence S).ExprOptMatch γ e (Expr.renameOpt ρ γ.declared e)
  | none, _, _, _, _ => .none
  | some e, _, shaped, sub, sound => .some (e.matches shaped sub sound)

theorem Stmt.matches : ∀ (s : Stmt) {γ : Setting}, s.Shaped → s.events γ ⊆ events →
    γ.Sound events → γ.Awaits s.declared?.toList →
    (correspondence S).StmtMatch γ s (s.rename ρ γ.declared) (s.after γ)
  | .expression e, _, shaped, sub, sound, _ => .expression (e.matches shaped sub sound)
  | .declare _ name initial, γ, shaped, sub, sound, awaits => by
      obtain ⟨event, rest⟩ := List.cons_subset.1 sub
      have value := Expr.matchesOpt initial shaped rest (sound.announce awaits)
      rw [(γ.alike_announce name).declared] at value
      exact .declare (follows.declare event sound awaits) (fun covers => covers.announce name) value
  | .block body, γ, shaped, sub, sound, _ =>
      .block ⟨declaredBy body, rfl⟩
        (Stmt.matchesAll body shaped sub (sound.push follows.faultless (declared_body sub))
          (γ.awaits_push _))
  | .choice condition thenBranch elseBranch, γ, ⟨first, ⟨second, plain⟩, third⟩, sub, sound, _ => by
      obtain ⟨sub, branches⟩ := List.append_subset.1 sub
      obtain ⟨sub₁, sub₂⟩ := List.append_subset.1 branches
      have inner := thenBranch.matches second sub₁ sound (plain.awaits γ)
      rw [plain.after] at inner
      exact .choice (condition.matches first sub sound) inner
        (Stmt.matchesOpt elseBranch third sub₂ sound)
  | .loop condition body stepped, γ, ⟨first, ⟨second, plain⟩, round⟩, sub, sound, _ => by
      obtain ⟨sub, sub₁⟩ := List.append_subset.1 sub
      have guard := condition.matches first sub sound
      have inner := body.matches second sub₁ sound (plain.awaits γ)
      rw [plain.after] at inner
      cases stepped with
      | false => exact .loop guard inner
      | true =>
          obtain ⟨s, step, rfl, plain'⟩ := round rfl
          exact .stepped guard inner (inner.step plain')
  | .repetition keyword count step body, γ, ⟨first, second, third, plain⟩, sub, sound, _ => by
      obtain ⟨sub, rest⟩ := List.append_subset.1 sub
      obtain ⟨sub₁, sub₂⟩ := List.append_subset.1 rest
      have inner := body.matches third sub₂ sound (plain.awaits γ)
      rw [plain.after] at inner
      exact .repetition (tokenMatch_refl keyword) (count.matches first sub sound)
        (step.matches second sub₁ sound) inner
  | .function routine, γ, ⟨named, shaped⟩, sub, sound, awaits => by
      obtain ⟨name, eq⟩ := Option.isSome_iff_exists.1 named
      obtain ⟨sub, rest⟩ := List.append_subset.1 sub
      simp only [eq, Option.elim_some, List.cons_subset] at sub rest
      simp only [Stmt.declared?, eq, Option.toList_some] at awaits
      have inner := routine.matches shaped rest (sound.introduce awaits)
      rw [(γ.alike_introduce name).declared] at inner
      simp only [Stmt.after, Stmt.declared?, eq, Option.elim_some]
      refine .function ?_ (follows.declare sub.1 sound awaits) inner
      simp [Routine.label, eq]
  | .classDecl name methods, γ, shaped, sub, sound, awaits => by
      obtain ⟨event, rest⟩ := List.cons_subset.1 sub
      have declared := follows.declare event sound awaits
      have again : S.Declares (γ.introduce name) name.lexeme name.lexeme (γ.introduce name) :=
        ⟨(γ.alike_introduce name).outline? ▸ declared.names, fun covers _ => covers⟩
      have inner := Routine.matchesAll methods shaped rest (sound.introduce awaits).pushThis
      simp only [Setting.declared, Setting.pushThis, List.map_cons] at inner
      rw [← Setting.declared, (γ.alike_introduce name).declared] at inner
      exact .classDecl rfl declared again rfl inner
  | .ret keyword value, _, shaped, sub, sound, _ =>
      .ret (tokenMatch_refl keyword) (Expr.matchesOpt value shaped sub sound)
  | .brk keyword, _, _, _, _, _ => .brk (tokenMatch_refl keyword)
  | .cont keyword, _, _, _, _, _ => .cont (tokenMatch_refl keyword)

private theorem Stmt.matchesAll : ∀ (ss : List Stmt) {γ : Setting}, Stmt.ShapedAll ss →
    Stmt.eventsAll ss γ ⊆ events → γ.Sound events → γ.Awaits (declaredBy ss) →
    (correspondence S).StmtsMatch γ ss (Stmt.renameAll ρ γ.declared ss)
  | [], _, _, _, _, _ => .nil
  | s :: ss, γ, shaped, sub, sound, awaits => by
      obtain ⟨sub, rest⟩ := List.append_subset.1 sub
      obtain ⟨first, others⟩ := awaits.cons
      have inner := Stmt.matchesAll ss shaped.2 rest (sound.after first) others
      rw [(s.alike_after γ).declared] at inner
      exact .cons (s.matches shaped.1 sub sound first) inner

theorem Stmt.matchesOpt : ∀ (s : Option Stmt) {γ : Setting}, Stmt.ShapedOpt s →
    Stmt.eventsOpt s γ ⊆ events → γ.Sound events →
    (correspondence S).StmtOptMatch γ s (Stmt.renameOpt ρ γ.declared s)
  | none, _, _, _, _ => .none
  | some s, γ, ⟨shaped, plain⟩, sub, sound => by
      have inner := s.matches shaped sub sound (plain.awaits γ)
      rw [plain.after] at inner
      exact .some inner

theorem Routine.matches : ∀ (m : Routine) {γ : Setting}, m.Shaped → m.events γ ⊆ events →
    γ.Sound events → (correspondence S).RoutineMatch γ m (m.rename ρ γ.declared)
  | { name, params, body, isStatic, keyword }, γ, shaped, sub, sound => by
      obtain ⟨first, rest⟩ := List.append_subset.1 sub
      have declared := (declared_params first).append (declared_body rest)
      have inside := sound.push follows.faultless declared
      have awaits := γ.awaits_push (params ++ declaredBy body)
      have all := inside.introduceAll awaits.left
      have inner := Stmt.matchesAll body shaped rest all awaits.right.introduceAll
      rw [(alike_introduceAll params _).declared] at inner
      exact .intro rfl rfl rfl trivial ⟨_, rfl⟩ (params_match follows first inside awaits.left)
        inner

theorem Routine.matchesAll : ∀ (ms : List Routine) {γ : Setting}, Routine.ShapedAll ms →
    Routine.eventsAll ms γ ⊆ events → γ.Sound events →
    (correspondence S).MethodsMatch γ ms (Routine.renameAll ρ γ.declared ms)
  | [], _, _, _, _ => .nil
  | m :: ms, _, shaped, sub, sound =>
      have sub := List.append_subset.1 sub
      .cons (m.matches shaped.1 sub.1 sound) (Routine.matchesAll ms shaped.2 sub.2 sound)

end

end

/-! ### Programs in new sessions -/

theorem program_matches {S : Scheme} {ρ : Renaming} {program : List Stmt}
    (follows : S.Follows ρ (programEvents program)) (shaped : Stmt.ShapedAll program) :
    S.correspondence.StmtsMatch ([] : Setting) program (renameProgram ρ program) :=
  Stmt.matchesAll follows program shaped (List.Subset.refl _) trivial nofun

theorem Scheme.interpret_agree (S : Scheme) {c : Chart} {program program' : List Stmt}
    {s s' : Session}
    (machine : S.correspondence.MachineMatch c Heap.globals s.machine s'.machine)
    (covers : c.Covers Heap.globals [])
    (stmts : S.correspondence.StmtsMatch ([] : Setting) program program') (fuel : Nat) :
    Option.Rel (S.correspondence.EndMatch c) (s.interpret fuel program)
      (s'.interpret fuel program') := by
  have at_ : S.correspondence.At c Heap.globals ([] : Setting) := covers
  exact Correspondence.interpret_agree machine at_ stmts fuel

/-- The names that the global scope of a new session binds. -/
def predefined (library : Bool) : List String := if library then libraryNames else []

open Correspondence (newHeap)

def Chart.start (library : Bool) : Chart := ⟨(newHeap library).scopes, fun _ => none⟩

theorem Chart.start_covers (library : Bool) : (Chart.start library).Covers Heap.globals [] := by
  cases library <;> exact ⟨by decide, rfl, by decide⟩

private theorem Assoc.mem_names_of_find? {α : Type} {entries : Assoc α} {x : String} {a : α}
    (h : entries.find? x = some a) : x ∈ entries.names := by
  induction entries with
  | nil => cases h
  | cons entry entries ih =>
      obtain ⟨key, value⟩ := entry
      simp only [Assoc.find?] at h
      split at h
      next same => exact same ▸ List.mem_cons_self
      next => exact List.mem_cons_of_mem _ (ih h)

theorem Chart.start_bound {library : Bool} {p : Nat} {x : String}
    (h : ((Chart.start library).scopes.binding? p x).isSome) : x ∈ predefined library := by
  obtain ⟨b, found⟩ := Option.isSome_iff_exists.1 h
  obtain ⟨scope, at_, bound⟩ := Option.bind_eq_some_iff.1 found
  have size : (Chart.start library).scopes.records.size = 1 := by cases library <;> rfl
  obtain rfl : p = 0 := by
    have := (Array.getElem?_eq_some_iff.1 at_).1
    omega
  have names : ((Chart.start library).scopes.records[0]?).map (·.bindings.names) =
      some (predefined library) := by
    cases library with
    | false => rfl
    | true => exact withLibrary_names
  rw [at_] at names
  exact Option.some.inj names ▸ Assoc.mem_names_of_find? bound

end Treewalk
