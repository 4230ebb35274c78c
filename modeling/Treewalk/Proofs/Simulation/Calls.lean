import Treewalk.Proofs.Simulation.Operations

/-!
# Built-in operations and calls that agree

A call runs its routine in a scope whose context is the one in which the two
bodies were compared; what a callback does is left to the runners.
-/

namespace Treewalk.Correspondence

variable {K : Correspondence} {w : K.World} {place : K.Place} {run run' : Runner}
  {site site' : Position}

/-! ### Built-in operations -/

private theorem receiver_agree (this : Option Value) (hs : K.Site site site') :
    K.Agree w place (fun w' a b => b.1 = a.1 ∧ K.ObjectMatch w' a.2 b.2)
      (Eval.receiver this site) (Eval.receiver this site') := by
  rcases this with _ | v
  · exact .fails hs
  · cases v with
    | null | bool | number | callable => exact .fails hs
    | object o =>
        refine .get fun {m m'} machine => ?_
        have found := getElem?_match machine.heap.objects o
        generalize m.heap.objects[o]? = x at found ⊢
        generalize m'.heap.objects[o]? = x' at found ⊢
        cases found with
        | none => exact .fails hs
        | some objects => exact .pure ⟨rfl, objects⟩

theorem receiver_bind {α : Type} {f g : Nat × Object → Eval α} (this : Option Value)
    (hs : K.Site site site')
    (h : ∀ {w' place' o o'}, K.Le w w' → K.ObjectMatch w' o o' →
      K.Agree w' place K.Same (f (place', o)) (g (place', o'))) :
    K.Agree w place K.Same (Eval.receiver this site >>= f) (Eval.receiver this site' >>= g) := by
  refine .bind (receiver_agree this hs) ?_
  rintro w' ⟨o, object⟩ ⟨o', object'⟩ le ⟨same, objects⟩
  obtain rfl : o' = o := same
  exact h le objects

theorem setContent_agree (object : Nat) (content : Content) :
    K.Agree w place K.Same (Eval.changeHeap (·.setContent object content))
      (Eval.changeHeap (·.setContent object content)) :=
  .changeHeap fun heap => ⟨w, K.le_refl w, heap.setContent object content, rfl⟩

private theorem textOr_agree (runs : K.Runners run run') (fallback : String) (args : List Value)
    (hs : K.Site site site') :
    K.Agree w place K.Same (Eval.textOr run fallback args site)
      (Eval.textOr run' fallback args site') := by
  unfold Eval.textOr
  split
  · exact .same
  · exact .same
  · exact runs.display _ hs

private theorem textNew_agree (runs : K.Runners run run') (this : Option Value) (args : List Value)
    (hs : K.Site site site') :
    K.Agree w place K.Same (Eval.textNew run this args site)
      (Eval.textNew run' this args site') := by
  refine receiver_bind this hs fun _ _ => ?_
  refine .bindSame (textOr_agree runs "" args hs) fun text _ => ?_
  exact .bindSame (setContent_agree _ _) fun _ _ => .same

private theorem textSplit_agree (runs : K.Runners run run') (this : Option Value)
    (args : List Value) (hs : K.Site site site') :
    K.Agree w place K.Same (Eval.textSplit run this args site)
      (Eval.textSplit run' this args site') := by
  refine receiver_bind this hs fun {w' o' o o''} _ objects => ?_
  have pieces {w} (separator : String) : K.Agree w place K.Same
      ((Text.pieces separator.toList o.content.textOrEmpty.toList).mapM
        (fun piece => Eval.makeText (String.ofList piece) site) >>= fun values =>
        Eval.makeArray values.toArray site)
      ((Text.pieces separator.toList o''.content.textOrEmpty.toList).mapM
        (fun piece => Eval.makeText (String.ofList piece) site') >>= fun values =>
        Eval.makeArray values.toArray site') := by
    rw [objects.content]
    refine .bindSame (.mapMSame _ fun piece _ => makeText_agree _ hs) fun values _ => ?_
    exact makeArray_agree _ hs
  cases args with
  | nil => exact .bindSame .same fun separator _ => pieces separator
  | cons v rest => exact .bindSame (runs.display v hs) fun separator _ => pieces separator

private theorem arrayPush_agree (this : Option Value) (args : List Value) (hs : K.Site site site') :
    K.Agree w place K.Same (Eval.arrayPush this args site)
      (Eval.arrayPush this args site') := by
  refine receiver_bind this hs fun {w' o' _ _} _ _ => ?_
  refine .bindSame (.onHeap fun heap => ?_) fun size _ => ?_
  · obtain ⟨heap', same⟩ := heap.pushElement? o' (args.headD .null)
    exact ⟨w', K.le_refl w', heap', same⟩
  · cases size with
    | none => exact .fails hs
    | some size => exact .same

private theorem arrayJoin_agree (runs : K.Runners run run') (this : Option Value)
    (args : List Value) (hs : K.Site site site') :
    K.Agree w place K.Same (Eval.arrayJoin run this args site)
      (Eval.arrayJoin run' this args site') := by
  refine receiver_bind this hs fun _ objects => ?_
  simp only [objects.content]
  refine .bindSame (textOr_agree runs "," args hs) fun separator _ => ?_
  refine .bindSame (displayAll_agree runs _ hs) fun texts _ => ?_
  exact makeText_agree _ hs

private theorem callback_agree (method : String) (args : List Value) (hs : K.Site site site') :
    K.Agree w place (fun w' => K.CallableMatch w') (Eval.callback method args site)
      (Eval.callback method args site') := by
  refine .get fun {m m'} machine => ?_
  cases args with
  | nil => exact .fails hs
  | cons v rest =>
      have found := machine.heap.callable? v
      simp only [List.head?_cons, Option.bind_some]
      generalize m.heap.callable? v = c at found ⊢
      generalize m'.heap.callable? v = c' at found ⊢
      cases found with
      | none => exact .fails hs
      | some callable => exact .pure callable

private theorem mapElements_agree (runs : K.Runners run run') {c c' : Callable}
    (callable : K.CallableMatch w c c') (elements : List Value) (hs : K.Site site site') :
    K.Agree w place K.Same (Eval.mapElements run c site elements)
      (Eval.mapElements run' c' site' elements) :=
  .mapMSame _ fun _ le => runs.invoke _ (callable.mono le) hs

private theorem arrayMap_agree (runs : K.Runners run run') (this : Option Value) (args : List Value)
    (hs : K.Site site site') :
    K.Agree w place K.Same (Eval.arrayMap run this args site)
      (Eval.arrayMap run' this args site') := by
  refine receiver_bind this hs fun _ objects => ?_
  simp only [objects.content]
  refine .bind (callback_agree "map" args hs) fun _ callable => ?_
  refine .bindSame (mapElements_agree runs callable _ hs) fun answers _ => ?_
  exact makeArray_agree _ hs

private theorem arrayForEach_agree (runs : K.Runners run run') (this : Option Value)
    (args : List Value) (hs : K.Site site site') :
    K.Agree w place K.Same (Eval.arrayForEach run this args site)
      (Eval.arrayForEach run' this args site') := by
  refine receiver_bind this hs fun _ objects => ?_
  simp only [objects.content]
  refine .bind (callback_agree "forEach" args hs) fun _ callable => ?_
  exact .bindSame (mapElements_agree runs callable _ hs) fun _ _ => .same

private theorem arrayRemove_agree (this : Option Value) (args : List Value)
    (hs : K.Site site site') :
    K.Agree w place K.Same (Eval.arrayRemove this args site)
      (Eval.arrayRemove this args site') := by
  refine receiver_bind this hs fun _ objects => ?_
  simp only [objects.content]
  split
  · exact .fails hs
  · exact .fails hs
  · refine .get fun {m m'} machine => ?_
    simp only [machine.heap.equal]
    exact .bindSame (setContent_agree _ _) fun _ _ => .same

private theorem arrayFlatten_agree (this : Option Value) (hs : K.Site site site') :
    K.Agree w place K.Same (Eval.arrayFlatten this site) (Eval.arrayFlatten this site') := by
  refine receiver_bind this hs fun _ objects => ?_
  simp only [objects.content]
  refine .get fun {m m'} machine => ?_
  simp only [machine.heap.flattened]
  exact .bindSame (setContent_agree _ _) fun _ _ => .same

private theorem consolePrint_agree (runs : K.Runners run run') (args : List Value)
    (hs : K.Site site site') :
    K.Agree w place K.Same (Eval.consolePrint run args site)
      (Eval.consolePrint run' args site') := by
  refine .bindSame (displayAll_agree runs args hs) fun texts _ => ?_
  exact .bindSame (.changeReport (K.reports_print _)) fun _ _ => .same

private def nextLine : Eval (List UInt8) :=
  modifyGet fun m =>
    let (line, rest) := Text.takeLine m.input
    (line, { m with input := rest })

private def lineText (line : List UInt8) (site : Position) : Eval Value :=
  let text := match Text.decodeUtf8 line with
    | .ok text => text
    | .error _ => ""
  Eval.makeText (String.ofList (Text.chomp text.toList)) site

private theorem consoleRead_agree (runs : K.Runners run run') (args : List Value)
    (hs : K.Site site site') :
    K.Agree w place K.Same (Eval.consoleRead run args site)
      (Eval.consoleRead run' args site') := by
  have line {w} : K.Agree w place K.Same nextLine nextLine := by
    refine .modifyGet fun {m m'} machine => ⟨w, K.le_refl w, ?_, ?_⟩
    · exact { machine with input := by simp only [machine.input] }
    · simp only [Same, machine.input]
  have rest {w} : K.Agree w place K.Same (nextLine >>= (lineText · site))
      (nextLine >>= (lineText · site')) :=
    .bindSame line fun line _ => makeText_agree _ hs
  cases args with
  | nil => exact rest
  | cons v values =>
      refine .bindSame (runs.display v hs) fun text _ => ?_
      exact .bindSame (.changeReport (K.reports_prompt _)) fun _ _ => rest

private theorem clock_agree : K.Agree w place K.Same Eval.clock Eval.clock :=
  .bindSame .readClock fun _ _ => .same

private theorem callBuiltin_agree (runs : K.Runners run run') (b : Builtin) (this : Option Value)
    (args : List Value) (hs : K.Site site site') :
    K.Agree w place K.Same (Eval.callBuiltin run b this args site)
      (Eval.callBuiltin run' b this args site') := by
  cases b with
  | textNew => exact textNew_agree runs this args hs
  | textLength =>
      refine receiver_bind this hs fun _ objects => ?_
      simp only [objects.content]
      exact .same
  | textSplit => exact textSplit_agree runs this args hs
  | textTrim =>
      refine receiver_bind this hs fun _ objects => ?_
      simp only [objects.content]
      exact makeText_agree _ hs
  | textToString => exact receiver_bind this hs fun _ _ => .same
  | arrayNew =>
      refine receiver_bind this hs fun _ _ => ?_
      exact .bindSame (setContent_agree _ _) fun _ _ => .same
  | arrayPush => exact arrayPush_agree this args hs
  | arrayLength =>
      refine receiver_bind this hs fun _ objects => ?_
      simp only [objects.content]
      exact .same
  | arrayJoin => exact arrayJoin_agree runs this args hs
  | arrayToString =>
      refine receiver_bind this hs fun _ _ => ?_
      exact .bindSame (runs.display _ hs) fun text _ => makeText_agree text hs
  | arrayMap => exact arrayMap_agree runs this args hs
  | arrayForEach => exact arrayForEach_agree runs this args hs
  | arrayRemove => exact arrayRemove_agree this args hs
  | arrayFlatten => exact arrayFlatten_agree this hs
  | math f => exact .same
  | consolePrint => exact consolePrint_agree runs args hs
  | consoleRead => exact consoleRead_agree runs args hs
  | clock => exact clock_agree

/-! ### Calls -/

theorem sequence_agree (runs : K.Runners run run') {γ : K.Context} {ss ss' : List Stmt}
    (at_ : K.At w place γ) (stmts : K.StmtsMatch γ ss ss') :
    K.Agree w place (fun _ => K.CompletionMatch) (Eval.sequence run ss)
      (Eval.sequence run' ss') := by
  induction ss generalizing w γ ss' with
  | nil =>
      cases stmts with
      | nil => exact .pure .normal
  | cons s ss ih =>
      cases stmts with
      | cons first rest =>
          refine .bind (runs.execute at_ first) ?_
          rintro w' c c' le ⟨completion, fits⟩
          cases completion with
          | normal => exact ih (fits rfl) rest
          | ret tokens => exact .pure (.ret tokens)
          | brk tokens => exact .pure (.brk tokens)
          | cont tokens => exact .pure (.cont tokens)

private theorem defineParams_match {γ γ' : K.Context} {ps ps' : List Token} {scope : K.Place}
    {h h' : Heap} (heap : K.HeapMatch w h h') (at_ : K.At w scope γ)
    (params : K.ParamsMatch γ ps ps' γ') (args : List Value) :
    ∃ w', K.Le w w' ∧ K.HeapMatch w' (Eval.defineParams (K.first scope) ps args h)
      (Eval.defineParams (K.second scope) ps' args h') ∧ K.At w' scope γ' := by
  induction params generalizing w h h' args with
  | nil => exact ⟨w, K.le_refl w, heap, at_⟩
  | cons declares rest ih =>
      obtain ⟨w₁, le₁, heap₁, at₁⟩ := heap.define at_ declares (args.headD .null) true
      obtain ⟨w₂, le₂, heap₂, at₂⟩ := ih heap₁ at₁ args.tail
      exact ⟨w₂, K.le_trans le₁ le₂, heap₂, at₂⟩

private theorem escape_agree {α β : Type} {Q : K.World → α → β → Prop} (word : String)
    {t t' : Token} (tokens : K.TokenMatch t t') :
    K.Agree w place Q (Eval.escape word t) (Eval.escape word t') :=
  .fails tokens.site

private theorem callRoutine_agree (runs : K.Runners run run') {γ : K.Context} {r r' : Routine}
    {closure : K.Place} (at_ : K.At w closure γ) (routine : K.RoutineMatch γ r r')
    (args : List Value) :
    K.Agree w place K.Same (Eval.callRoutine run r (K.first closure) args)
      (Eval.callRoutine run' r' (K.second closure) args) := by
  cases routine with
  | @intro γ γ₁ γ₂ _ _ _ _ _ _ opens params body =>
      refine .bind (.onHeap fun heap => heap.addScope at_ opens) ?_
      rintro w₁ _ _ _ ⟨scope, rfl, rfl, at₁⟩
      refine .bind (Q := fun w' _ _ => K.At w' scope γ₂)
        (.changeHeap fun heap => defineParams_match heap at₁ params args) ?_
      intro w₂ _ _ _ at₂
      refine .bind (.inScope (sequence_agree runs at₂ body)) ?_
      intro w₃ c c' _ completion
      cases completion with
      | normal => exact .same
      | ret tokens => exact .same
      | brk tokens => exact escape_agree _ tokens
      | cont tokens => exact escape_agree _ tokens

private theorem callMethod_agree (runs : K.Runners run run') {c c' : Code}
    (code : K.CodeMatch w c c') (this : Value) (args : List Value) (hs : K.Site site site') :
    K.Agree w place K.Same (Eval.callMethod run c this args site)
      (Eval.callMethod run' c' this args site') := by
  cases code with
  | builtin => exact callBuiltin_agree runs _ _ args hs
  | @written γ γ₁ _ _ _ at_ binds routine =>
      refine .bind (.onHeap fun heap => heap.bindScope at_ binds this) ?_
      rintro w₁ _ _ _ ⟨closure, rfl, rfl, at₁⟩
      exact callRoutine_agree runs at₁ routine args

private theorem instantiate_agree (runs : K.Runners run run') {c c' : Class}
    (cls : K.ClassMatch w c c') (args : List Value) (hs : K.Site site site') :
    K.Agree w place K.Same (Eval.instantiate run c args site)
      (Eval.instantiate run' c' args site') := by
  have blank : K.ObjectMatch w c.blank c'.blank :=
    ⟨cls, rfl, by simp only [Class.blank, cls.content]⟩
  refine .bindSame (onHeap_addObject blank) fun object le => ?_
  have found := (cls.mono le).method? "new"
  simp only [Class.initializer?]
  generalize c.method? "new" = m at found ⊢
  generalize c'.method? "new" = m' at found ⊢
  cases found with
  | none => exact .same
  | some code => exact .bindSame (callMethod_agree runs code object args hs) fun _ _ => .same

private theorem call_agree (runs : K.Runners run run') {c c' : Callable}
    (callable : K.CallableMatch w c c') (args : List Value) (hs : K.Site site site') :
    K.Agree w place K.Same (Eval.call run c args site) (Eval.call run' c' args site') := by
  cases callable with
  | native => exact callBuiltin_agree runs _ _ args hs
  | function at_ routine => exact callRoutine_agree runs at_ routine args
  | classObject cls => exact instantiate_agree runs cls args hs

theorem invoke_agree (runs : K.Runners run run') {c c' : Callable}
    (callable : K.CallableMatch w c c') (args : List Value) (hs : K.Site site site') :
    K.Agree w place K.Same (Eval.invoke run c args site) (Eval.invoke run' c' args site') := by
  refine .bindSame .checkTime fun _ le => .get fun {m m'} machine => ?_
  rw [machine.config, machine.depth]
  split
  · exact .fails hs
  · exact .asCall (call_agree runs (callable.mono le) args hs)

end Treewalk.Correspondence
