import Treewalk.Proofs.Simulation.Calls

/-!
# Whole runs agree

Expressions and statements are taken apart as the evaluator takes them apart.
Induction on the fuel then shows that two evaluators stay in step, and so do
two programs that correspond statement by statement.
-/

namespace Treewalk.Correspondence

variable {K : Correspondence} {w : K.World} {place : K.Place} {run run' : Runner}
  {γ : K.Context}

/-! ### Expressions -/

theorem ExprMatch.site : ∀ {e e' : Expr}, K.ExprMatch γ e e' →
    K.Site e.token.position e'.token.position
  | _, _, .literal tokens | _, _, .array tokens _ | _, _, .unary tokens _
  | _, _, .binary tokens _ _ | _, _, .logical tokens _ _ | _, _, .ternary tokens _ _ _
  | _, _, .bump tokens _ | _, _, .get tokens _ | _, _, .set tokens _ _
  | _, _, .subscript tokens _ _ | _, _, .call tokens _ _ => tokens.site
  | _, _, .grouping inner => inner.site
  | _, _, .ref _ site | _, _, .assign _ site _ | _, _, .this _ site => site
  | _, _, .lambda (.intro _ _ site _ _ _ _) => site

private theorem ExprsMatch.forall₂ : ∀ {es es' : List Expr}, K.ExprsMatch γ es es' →
    List.Forall₂ (K.ExprMatch γ) es es'
  | _, _, .nil => .nil
  | _, _, .cons first rest => .cons first rest.forall₂

private theorem evaluateAll_agree (runs : K.Runners run run') {es es' : List Expr}
    (at_ : K.At w place γ) (exprs : K.ExprsMatch γ es es') :
    K.Agree w place K.Same (es.mapM run.evaluate) (es'.mapM run'.evaluate) :=
  .mapM (fun le expr => runs.evaluate (K.at_mono le at_) expr) exprs.forall₂

private theorem literal_agree (v : Literal) {site site' : Position} (hs : K.Site site site') :
    K.Agree w place K.Same (Eval.literal v site) (Eval.literal v site') := by
  cases v with
  | text s => exact makeText_agree s hs
  | number | bool | null => exact .same

private theorem unary_agree (runs : K.Runners run run') {t t' : Token} (tokens : K.TokenMatch t t')
    (v : Value) : K.Agree w place K.Same (Eval.unary run t v) (Eval.unary run' t' v) := by
  unfold Eval.unary
  rw [tokens.kind]
  split
  · cases v with
    | number x => exact .same
    | null | bool | callable | object => exact .fails tokens.site
  · exact .bindSame (truthy_agree runs v tokens.site) fun _ _ => .same

private theorem logical_agree (runs : K.Runners run run') {t t' : Token}
    (tokens : K.TokenMatch t t')
    (v : Value) {e e' : Expr} (at_ : K.At w place γ) (expr : K.ExprMatch γ e e') :
    K.Agree w place K.Same (Eval.logical run t v e) (Eval.logical run' t' v e') := by
  have hs := tokens.site
  unfold Eval.logical
  rw [tokens.kind]
  split
  · refine .bindSame (runs.evaluate at_ expr) fun x _ => ?_
    refine .bindSame (truthy_agree runs v hs) fun first _ => ?_
    exact .bindSame (truthy_agree runs x hs) fun second _ => .same
  · refine .bindSame (truthy_agree runs v hs) fun first le => ?_
    split
    · exact .same
    · exact runs.evaluate (K.at_mono le at_) expr
  · refine .bindSame (truthy_agree runs v hs) fun first le => ?_
    split
    · exact runs.evaluate (K.at_mono le at_) expr
    · exact .same

private theorem numberOf_agree (v : Value) {site site' : Position} (hs : K.Site site site') :
    K.Agree w place K.Same (Eval.numberOf v site) (Eval.numberOf v site') := by
  cases v with
  | number x => exact .same
  | null | bool | callable | object => exact .fails hs

private theorem setProperty_agree (object v : Value) {t t' : Token} (tokens : K.TokenMatch t t') :
    K.Agree w place K.Same (Eval.setProperty object v t) (Eval.setProperty object v t') := by
  cases object with
  | object o =>
      simp only [Eval.setProperty, tokens.lexeme]
      exact .changeHeap (P := K.Same) fun heap => ⟨w, K.le_refl w, heap.setField o _ v, rfl⟩
  | null | bool | number | callable => exact .fails tokens.site

private theorem bump_agree (runs : K.Runners run run') {t t' : Token} (tokens : K.TokenMatch t t')
    {e e' : Expr} (at_ : K.At w place γ) (operand : K.ExprMatch γ e e') :
    K.Agree w place K.Same (Eval.bump run e t) (Eval.bump run' e' t') := by
  have hs := tokens.site
  have delta : t'.isSymbol .plusPlus = t.isSymbol .plusPlus := by
    simp only [Token.isSymbol, tokens.kind]
  -- Operands that are neither a name nor a property.
  have other {e e' : Expr} (expr : K.ExprMatch γ e e') (delta : Float) :
      K.Agree w place K.Same
        (run.evaluate e >>= fun v => Eval.numberOf v t.position >>= fun x =>
          pure (Value.number (x + delta)))
        (run'.evaluate e' >>= fun v => Eval.numberOf v t'.position >>= fun x =>
          pure (Value.number (x + delta))) := by
    refine .bindSame (runs.evaluate at_ expr) fun v _ => ?_
    exact .bindSame (numberOf_agree v hs) fun x _ => .same
  unfold Eval.bump
  simp only [delta]
  cases operand with
  | ref refers site =>
      refine .bindSame (readName_agree at_ refers site) fun v le => ?_
      refine .bindSame (numberOf_agree v hs) fun old le' => ?_
      have at' := K.at_mono (K.le_trans le le') at_
      exact .bindSame (writeName_agree at' refers site _) fun _ _ => .same
  | get names object =>
      refine .bindSame (runs.evaluate at_ object) fun o _ => ?_
      rw [names.lexeme]
      refine .bindSame (property_agree o _ names.site) fun v _ => ?_
      refine .bindSame (numberOf_agree v hs) fun old _ => ?_
      exact .bindSame (setProperty_agree o _ names) fun _ _ => .same
  | literal a => exact other (.literal a) _
  | array a b => exact other (.array a b) _
  | grouping a => exact other (.grouping a) _
  | unary a b => exact other (.unary a b) _
  | binary a b c => exact other (.binary a b c) _
  | logical a b c => exact other (.logical a b c) _
  | ternary a b c d => exact other (.ternary a b c d) _
  | bump a b => exact other (.bump a b) _
  | assign a b c => exact other (.assign a b c) _
  | set a b c => exact other (.set a b c) _
  | subscript a b c => exact other (.subscript a b c) _
  | call a b c => exact other (.call a b c) _
  | this a b => exact other (.this a b) _
  | lambda a => exact other (.lambda a) _

private theorem assignProperty_agree (runs : K.Runners run run') (object : Value) {t t' : Token}
    (tokens : K.TokenMatch t t') {e e' : Expr} (at_ : K.At w place γ)
    (expr : K.ExprMatch γ e e') :
    K.Agree w place K.Same (Eval.assignProperty run object t e)
      (Eval.assignProperty run' object t' e') := by
  cases object with
  | object o =>
      refine .bindSame (runs.evaluate at_ expr) fun v _ => ?_
      exact .bindSame (setProperty_agree _ v tokens) fun _ _ => .same
  | null | bool | number | callable => exact .fails tokens.site

private theorem evaluate_agree (runs : K.Runners run run') {e e' : Expr} (at_ : K.At w place γ)
    (expr : K.ExprMatch γ e e') :
    K.Agree w place K.Same (Eval.evaluate run e) (Eval.evaluate run' e') := by
  cases expr with
  | literal tokens => exact literal_agree _ tokens.site
  | array tokens elements =>
      refine .bindSame (evaluateAll_agree runs at_ elements) fun values _ => ?_
      exact makeArray_agree _ tokens.site
  | grouping inner => exact runs.evaluate at_ inner
  | unary tokens right =>
      exact .bindSame (runs.evaluate at_ right) fun v _ => unary_agree runs tokens v
  | binary tokens left right =>
      refine .bindSame (runs.evaluate at_ left) fun v le => ?_
      refine .bindSame (runs.evaluate (K.at_mono le at_) right) fun x _ => ?_
      exact binary_agree runs tokens v x
  | logical tokens left right =>
      refine .bindSame (runs.evaluate at_ left) fun v le => ?_
      exact logical_agree runs tokens v (K.at_mono le at_) right
  | ternary tokens condition thenBranch elseBranch =>
      refine .bindSame (runs.evaluate at_ condition) fun v le => ?_
      refine .bindSame (truthy_agree runs v tokens.site) fun b le' => ?_
      have at' := K.at_mono (K.le_trans le le') at_
      split
      · exact runs.evaluate at' thenBranch
      · exact runs.evaluate at' elseBranch
  | bump tokens operand => exact bump_agree runs tokens at_ operand
  | ref refers site => exact readName_agree at_ refers site
  | this refers site => exact readName_agree at_ refers site
  | assign refers site value =>
      refine .bindSame (runs.evaluate at_ value) fun v le => ?_
      exact .bindSame (writeName_agree (K.at_mono le at_) refers site v) fun _ _ => .same
  | get names object =>
      refine .bindSame (runs.evaluate at_ object) fun v _ => ?_
      rw [names.lexeme]
      exact property_agree v _ names.site
  | set names object value =>
      refine .bindSame (runs.evaluate at_ object) fun v le => ?_
      exact assignProperty_agree runs v names (K.at_mono le at_) value
  | subscript tokens object index =>
      refine .bindSame (runs.evaluate at_ object) fun v le => ?_
      refine .bindSame (runs.evaluate (K.at_mono le at_) index) fun i _ => ?_
      exact subscript_agree v i tokens.site
  | call tokens callee arguments =>
      refine .bindSame (runs.evaluate at_ callee) fun f le => ?_
      refine .bindSame (evaluateAll_agree runs (K.at_mono le at_) arguments) fun args _ => ?_
      exact callValue_agree runs f args tokens.site
  | lambda routine =>
      refine .get fun {m m'} machine => ?_
      rw [machine.scope, machine.scope']
      exact onHeap_addCallable (.function at_ routine)

/-! ### Statements -/

private theorem evaluateOpt_agree (runs : K.Runners run run') {e e' : Option Expr}
    (at_ : K.At w place γ) (expr : K.ExprOptMatch γ e e') :
    K.Agree w place K.Same (Eval.evaluateOpt run e) (Eval.evaluateOpt run' e') := by
  cases expr with
  | none => exact .same
  | some expr => exact runs.evaluate at_ expr

inductive FlowMatch (K : Correspondence) : Eval.LoopFlow → Eval.LoopFlow → Prop where
  | next : FlowMatch K .next .next
  | again : FlowMatch K .again .again
  | leave : FlowMatch K .leave .leave
  | exit {v t t'} : K.TokenMatch t t' → FlowMatch K (.exit (.ret v t)) (.exit (.ret v t'))

private theorem CompletionMatch.flow {c c' : Completion} (completion : K.CompletionMatch c c') :
    K.FlowMatch (.of c) (.of c') := by
  cases completion with
  | normal => exact .next
  | ret tokens => exact .exit tokens
  | brk => exact .leave
  | cont => exact .again

private theorem loopBody_agree (runs : K.Runners run run') {s s' : Stmt} (at_ : K.At w place γ)
    (stmt : K.StmtMatch γ s s' γ) :
    K.Agree w place (fun _ => K.FlowMatch) (Eval.loopBody run s) (Eval.loopBody run' s') := by
  intro m m' machine
  have outcome := runs.execute at_ stmt machine
  unfold Eval.loopBody
  generalize run.execute s m = a at outcome ⊢
  generalize run'.execute s' m' = b at outcome ⊢
  cases outcome with
  | ok le machine ends => exact .ok le machine ends.1.flow
  | @error w₁ _ _ m₁ m₁' le machine halt =>
      cases halt with
      | exhausted => exact .error le machine .exhausted
      | @failure c c' p p' blames site =>
          -- Both sides look at the same policy, and a timeout is a timeout on both.
          have policy : (m₁'.config.loopPolicy = .report ∧ c' ≠ .timeout) ↔
              (m₁.config.loopPolicy = .report ∧ c ≠ .timeout) := by
            rw [machine.config, Ne, Ne, K.blames_timeout blames]
          simp only [policy]
          split
          · exact .ok le { machine with
              report := K.reports_failure machine.report blames site } .again
          · exact .error le machine (.failure blames site)

private theorem block_agree (runs : K.Runners run run') {γ' : K.Context} {ss ss' : List Stmt}
    (at_ : K.At w place γ) (opens : K.Opens γ γ') (stmts : K.StmtsMatch γ' ss ss') :
    K.Agree w place (fun _ => K.CompletionMatch) (Eval.block run ss)
      (Eval.block run' ss') := by
  refine .get fun {m m'} machine => ?_
  rw [machine.scope, machine.scope']
  refine .bind (.onHeap fun heap => heap.addScope at_ opens) ?_
  rintro w₁ _ _ _ ⟨scope, rfl, rfl, at₁⟩
  exact .inScope (sequence_agree runs at₁ stmts)

private theorem loop_agree (runs : K.Runners run run') {e e' : Expr} {s s' : Stmt} {stepped : Bool}
    (at_ : K.At w place γ) (condition : K.ExprMatch γ e e') (body : K.StmtMatch γ s s' γ)
    (step : ∀ {w}, stepped = true → K.At w place γ →
      K.Agree w place K.Same (Eval.loopStep run s) (Eval.loopStep run' s')) (rounds : Nat) :
    K.Agree w place (fun _ => K.CompletionMatch) (Eval.loop run e s stepped rounds)
      (Eval.loop run' e' s' stepped rounds) := by
  induction rounds generalizing w with
  | zero => exact .exhausted
  | succ rounds ih =>
      refine .bindSame .checkTime fun _ le₁ => ?_
      refine .bindSame (runs.evaluate (K.at_mono le₁ at_) condition) fun v le₂ => ?_
      have at₂ := K.at_mono (K.le_trans le₁ le₂) at_
      refine .bindSame (truthy_agree runs v condition.site) fun b le₃ => ?_
      have at₃ := K.at_mono le₃ at₂
      cases b with
      | false => exact .pure .normal
      | true =>
          refine .bind (loopBody_agree runs at₃ body) fun {w₄ f f'} le₄ flow => ?_
          have at₄ := K.at_mono le₄ at₃
          cases flow with
          | next => exact ih at₄
          | leave => exact .pure .normal
          | exit tokens => exact .pure (.ret tokens)
          | again =>
              cases stepped with
              | false => exact ih at₄
              | true => exact .bindSame (step rfl at₄) fun _ le => ih (K.at_mono le at₄)

private theorem repetitionLoop_agree (runs : K.Runners run run') {s s' : Stmt} (step : Float)
    (at_ : K.At w place γ) (body : K.StmtMatch γ s s' γ) (rounds : Nat) (remaining : Float) :
    K.Agree w place (fun _ => K.CompletionMatch) (Eval.repetitionLoop run step s rounds remaining)
      (Eval.repetitionLoop run' step s' rounds remaining) := by
  induction rounds generalizing w remaining with
  | zero => exact .exhausted
  | succ rounds ih =>
      unfold Eval.repetitionLoop
      split
      · refine .bindSame .checkTime fun _ le₁ => ?_
        refine .bind (loopBody_agree runs (K.at_mono le₁ at_) body) fun {w₂ f f'} le₂ flow => ?_
        have at₂ := K.at_mono (K.le_trans le₁ le₂) at_
        cases flow with
        | next => exact ih at₂ _
        | again => exact ih at₂ _
        | leave => exact .pure .normal
        | exit tokens => exact .pure (.ret tokens)
      · exact .pure .normal

/-- A function is visible in its own body, so the context fits only once its
name is bound as well. -/
private theorem defineFunction_agree {γ' : K.Context} {r r' : Routine} {x : String}
    (at_ : K.At w place γ) (label : r.label = some x) (declares : K.Declares γ x x γ')
    (routine : K.RoutineMatch γ' r r') :
    K.Agree w place (fun w' _ _ => K.At w' place γ') (Eval.defineFunction r)
      (Eval.defineFunction r') := by
  intro m m' machine
  obtain ⟨w', le, heap, fits⟩ :=
    machine.heap.define at_ declares (.callable m.heap.callables.size) true
  obtain ⟨heap', -⟩ := heap.addCallable (.function fits routine)
  have size := size_match machine.heap.callables
  have label' : r'.label = some x := routine.label.trans label
  simp only [Eval.defineFunction, label, label']
  refine .ok le { machine with heap := ?_, scope := machine.scope, scope' := machine.scope' } fits
  simpa [Heap.addCallable, Heap.define, machine.scope, machine.scope', size] using heap'

private theorem insert_match {ms ms' : Assoc Method}
    (methods : List.Forall₂ (K.MethodMatch w) ms ms')
    {name : String} {m m' : Method} (method : K.MethodMatch w (name, m) (name, m')) :
    List.Forall₂ (K.MethodMatch w) (ms.insert name m) (ms'.insert name m') := by
  induction methods with
  | nil => exact .cons method .nil
  | @cons a b _ _ first rest ih =>
      obtain ⟨key, old⟩ := a
      obtain ⟨key', old'⟩ := b
      obtain rfl : key' = key := first.name
      simp only [Assoc.insert]
      split
      · exact .cons ⟨rfl, method.isStatic, method.code⟩ rest
      · exact .cons first ih

private def addMethod (place : Nat) (table : Assoc Method) (r : Routine) : Assoc Method :=
  match r.label with
  | some name => table.insert name ⟨.written r place, r.isStatic⟩
  | none => table

theorem methodTable_match {γ' : K.Context} {ms ms' : List Routine} (at_ : K.At w place γ)
    (binds : K.Binds γ γ') (methods : K.MethodsMatch γ' ms ms') :
    List.Forall₂ (K.MethodMatch w) (Eval.methodTable (K.first place) ms)
      (Eval.methodTable (K.second place) ms') := by
  suffices fold : ∀ {table table' : Assoc Method}, List.Forall₂ (K.MethodMatch w) table table' →
      List.Forall₂ (K.MethodMatch w) (ms.foldl (addMethod (K.first place)) table)
        (ms'.foldl (addMethod (K.second place)) table') from fold .nil
  induction ms generalizing ms' with
  | nil =>
      cases methods with
      | nil => exact id
  | cons r rs ih =>
      cases methods with
      | @cons _ _ r' _ rs' first rest =>
          intro table table' tables
          simp only [List.foldl_cons, addMethod, first.label]
          cases r.label with
          | none => exact ih rest tables
          | some name =>
              have method : K.MethodMatch w (name, ⟨.written r (K.first place), r.isStatic⟩)
                  (name, ⟨.written r' (K.second place), r'.isStatic⟩) :=
                ⟨rfl, first.isStatic, .written at_ binds first⟩
              exact ih rest (insert_match tables method)

private theorem defineClass_agree {γ₁ γ₂ : K.Context} {x : String} {ms ms' : List Routine}
    (at_ : K.At w place γ) (declares : K.Declares γ x x γ₁) (again : K.Declares γ₁ x x γ₁)
    (binds : K.Binds γ₁ γ₂) (methods : K.MethodsMatch γ₂ ms ms') :
    K.Agree w place (fun w' _ _ => K.At w' place γ₁) (Eval.defineClass x ms)
      (Eval.defineClass x ms') := by
  refine .bind (declareName_agree at_ declares .null true) fun {w₁ _ _} le₁ at₁ => ?_
  refine .get fun {m m'} machine => ?_
  rw [machine.scope, machine.scope']
  have table := methodTable_match at₁ binds methods
  refine .bindSame (onHeap_addCallable (.classObject ⟨rfl, rfl, table⟩)) fun v le₂ => ?_
  exact declareName_agree (K.at_mono le₂ at₁) again v true

private theorem loopStep_agree (runs : K.Runners run run') {s s' : Stmt} {i i' : Expr}
    (at_ : K.At w place γ)
    (step : K.StmtMatch γ (.block [.expression i]) (.block [.expression i']) γ) :
    K.Agree w place K.Same (Eval.loopStep run (.block [s, .expression i]))
      (Eval.loopStep run' (.block [s', .expression i'])) := by
  cases step with
  | block opens stmts =>
      exact .bind (block_agree runs at_ opens stmts) fun _ _ => .same

private theorem Agree.ends {x y : Eval Completion} (at_ : K.At w place γ)
    (h : K.Agree w place (fun _ => K.CompletionMatch) x y) :
    K.Agree w place (K.Ends place γ) x y := by
  intro m m' machine
  have outcome := h machine
  generalize x m = a at outcome ⊢
  generalize y m' = b at outcome ⊢
  cases outcome with
  | ok le machine completion =>
      exact .ok le machine ⟨completion, fun _ => K.at_mono le at_⟩
  | error le machine halt => exact .error le machine halt

private theorem execute_agree (runs : K.Runners run run') {γ' : K.Context} {s s' : Stmt}
    (at_ : K.At w place γ) (stmt : K.StmtMatch γ s s' γ') (rounds : Nat) :
    K.Agree w place (K.Ends place γ') (Eval.execute run rounds s)
      (Eval.execute run' rounds s') := by
  cases stmt with
  | expression expr =>
      refine .bindSame (runs.evaluate at_ expr) fun _ le => ?_
      exact .pure ⟨.normal, fun _ => K.at_mono le at_⟩
  | declare declares inside initial =>
      refine .bindSame (evaluateOpt_agree runs (inside at_) initial) fun v le => ?_
      refine .bind (declareName_agree (K.at_mono le at_) declares v _) fun _ fits => ?_
      exact .pure ⟨.normal, fun _ => fits⟩
  | block opens stmts => exact .ends at_ (block_agree runs at_ opens stmts)
  | choice condition thenBranch elseBranch =>
      refine .bindSame (runs.evaluate at_ condition) fun v le => ?_
      refine .bindSame (truthy_agree runs v condition.site) fun b le' => ?_
      have at' := K.at_mono (K.le_trans le le') at_
      cases b with
      | true => exact runs.execute at' thenBranch
      | false =>
          cases elseBranch with
          | none => exact .pure ⟨.normal, fun _ => at'⟩
          | some elseBranch => exact runs.execute at' elseBranch
  | loop condition body =>
      refine .ends at_ (loop_agree runs at_ condition body (fun stepped => ?_) rounds)
      contradiction
  | stepped condition body step =>
      refine .ends at_ (loop_agree runs at_ condition body (fun _ at' => ?_) rounds)
      exact loopStep_agree runs at' step
  | repetition tokens count step body =>
      refine .ends at_ ?_
      refine .bindSame (runs.evaluate at_ count) fun c le => ?_
      have at₁ := K.at_mono le at_
      refine .bindSame (runs.evaluate at₁ step) fun d le' => ?_
      have at₂ := K.at_mono le' at₁
      split
      · exact repetitionLoop_agree runs _ at₂ body rounds _
      · exact .fails tokens.site
  | function label declares routine =>
      refine .bind (defineFunction_agree at_ label declares routine) fun _ fits => ?_
      exact .pure ⟨.normal, fun _ => fits⟩
  | classDecl name declares again binds methods =>
      simp only [Eval.execute, name]
      refine .bind (defineClass_agree at_ declares again binds methods) fun _ fits => ?_
      exact .pure ⟨.normal, fun _ => fits⟩
  | ret tokens value =>
      refine .ends at_ ?_
      exact .bindSame (evaluateOpt_agree runs at_ value) fun v _ => .pure (.ret tokens)
  | brk tokens => exact .ends at_ (.pure (.brk tokens))
  | cont tokens => exact .ends at_ (.pure (.cont tokens))

/-! ### Runs -/

theorem Runners.layer (runs : K.Runners run run') (rounds : Nat) :
    K.Runners (Eval.layer rounds run) (Eval.layer rounds run') where
  evaluate at_ expr := evaluate_agree runs at_ expr
  execute at_ stmt := execute_agree runs at_ stmt rounds
  invoke args _ _ callable hs := invoke_agree runs callable args hs
  display v _ _ hs := display_agree runs v hs

theorem Runners.perform (K : Correspondence) (fuel : Nat) :
    K.Runners (Eval.perform fuel) (Eval.perform fuel) := by
  induction fuel with
  | zero =>
      exact ⟨fun _ _ => .exhausted, fun _ _ => .exhausted, fun _ _ _ _ _ => .exhausted,
        fun _ _ _ _ => .exhausted⟩
  | succ fuel ih => exact ih.layer fuel

private theorem escape_bind_agree {α β α' β' : Type} {Q : K.World → α' → β' → Prop} (word : String)
    {t t' : Token} (tokens : K.TokenMatch t t') (f : α → Eval α') (g : β → Eval β') :
    K.Agree w place Q (Eval.escape word t >>= f) (Eval.escape word t' >>= g) :=
  fun _ _ machine => .error (K.le_refl w) machine (.failure (K.blames_refl _) tokens.site)

theorem program_agree (runs : K.Runners run run') {ss ss' : List Stmt}
    (at_ : K.At w place γ) (stmts : K.StmtsMatch γ ss ss') :
    K.Agree w place K.Same (Eval.program run ss) (Eval.program run' ss') := by
  induction ss generalizing w γ ss' with
  | nil =>
      cases stmts with
      | nil => exact .same
  | cons s ss ih =>
      cases stmts with
      | cons first rest =>
          refine .bind (runs.execute at_ first) ?_
          rintro w₁ c c' le ⟨completion, fits⟩
          cases completion with
          | normal =>
              refine .bindSame .checkTime fun _ le₁ => ?_
              exact ih (K.at_mono le₁ (fits rfl)) rest
          | ret tokens => exact escape_bind_agree _ tokens _ _
          | brk tokens => exact escape_bind_agree _ tokens _ _
          | cont tokens => exact escape_bind_agree _ tokens _ _

end Treewalk.Correspondence
