import Treewalk.Proofs.Scoping.Aliases

/-!
# A variable can be renamed

The resolver finds the same distances in a program and in the program with one
local variable renamed, and both programs print the same and end alike.
-/

namespace Treewalk

open Resolver (depthOf?)

namespace Alias

/-- A frame of the renamed program, as it follows from a scope of the original. -/
def Echo (a : Alias) (scope : Enclosure) (frame : Frame) : Prop :=
  ∀ z, frame.find? (a.swapIn scope.declared z) = scope.names.find? z

/-- The resolver of the renamed program is where the original has this setting. -/
structure Tracks (a : Alias) (γ : Setting) (r : Resolver) : Prop where
  frames : List.Forall₂ a.Echo γ r.frames
  inClass : r.inClass = γ.inClass

/-- The resolver of the renamed program notes what events of the original ask for,
blames nothing, and goes on where the original has this setting. -/
structure Leads (a : Alias) (r : Resolver) (events : List Event) (γ : Setting) (r' : Resolver) :
    Prop where
  tracks : a.Tracks γ r'
  table : r'.table = events.foldl Table.record r.table
  errors : r'.errors = r.errors

variable {a : Alias} {γ γ' : Setting} {r r₁ r₂ : Resolver} {scope : Enclosure} {frame : Frame}
  {x x' : String}

theorem Tracks.stay (h : a.Tracks γ r) : a.Leads r [] γ r := ⟨h, rfl, rfl⟩

theorem Leads.trans {events events' : List Event} (h : a.Leads r events γ r₁)
    (h' : a.Leads r₁ events' γ' r₂) : a.Leads r (events ++ events') γ' r₂ where
  tracks := h'.tracks
  table := by rw [h'.table, h.table, List.foldl_append]
  errors := h'.errors.trans h.errors

/-! ### Frames -/

theorem Echo.insert (h : a.Echo scope frame) (x : String) (flag : Bool) :
    a.Echo { scope with names := scope.names.insert x flag }
      (frame.insert (a.swapIn scope.declared x) flag) := by
  intro z
  simp only [Assoc.find?_insert, EmbeddingLike.apply_eq_iff_eq]
  split
  · rfl
  · exact h z

theorem Echo.has (h : a.Echo scope frame) (x : String) :
    frame.has (a.swapIn scope.declared x) = scope.names.has x :=
  congrArg Option.isSome (h x)

theorem Echo.find?_or (h : a.Echo scope frame) (fresh : scope.names.find? a.name = none)
    (notNew : x ≠ a.name) (becomes : x' = x ∨ x = a.old ∧ x' = a.name) :
    frame.find? x' = scope.names.find? x ∨ frame.find? x' = none := by
  by_cases other : x = a.old
  · subst other
    have old := h a.old
    have new := h a.name
    rw [fresh] at new
    by_cases mem : a.declaration ∈ scope.declared
    · simp only [swapIn, mem, if_true, Equiv.swap_apply_left, Equiv.swap_apply_right] at old new
      rcases becomes with rfl | ⟨-, rfl⟩
      · exact .inr new
      · exact .inl old
    · simp only [swapIn, mem, if_false, Equiv.refl_apply] at old new
      rcases becomes with rfl | ⟨-, rfl⟩
      · exact .inl old
      · exact .inr new
  · rcases becomes with rfl | ⟨same, -⟩
    · left
      simpa [a.swapIn_of_ne other notNew] using h x'
    · exact absurd same other

private theorem depthOf?_echo_of_ne {frames : List Frame} (echo : List.Forall₂ a.Echo γ frames)
    (notOld : x ≠ a.old) (notNew : x ≠ a.name) : depthOf? x frames = depthOf? x γ.frames := by
  induction echo with
  | nil => rfl
  | @cons scope frame γ frames head _ ih =>
      have has := head.has x
      rw [a.swapIn_of_ne notOld notNew] at has
      simp only [depthOf?, Setting.frames] at ih
      simp only [depthOf?, Setting.frames, List.map_cons, List.findIdx?_cons, has, ih]

private theorem depthOf?_echo_old {frames : List Frame} (echo : List.Forall₂ a.Echo γ frames)
    (fresh : ∀ scope ∈ γ, scope.names.find? a.name = none) (differ : a.old ≠ a.name)
    {distance : Nat} (depth : depthOf? a.old γ.frames = some distance)
    (at_ : γ[distance]? = some scope) :
    depthOf? (a.swapIn scope.declared a.old) frames = some distance := by
  have becomes : a.swapIn scope.declared a.old = a.old ∨
      a.old = a.old ∧ a.swapIn scope.declared a.old = a.name := by
    rw [swapIn_old]
    split
    · exact .inr ⟨rfl, rfl⟩
    · exact .inl rfl
  induction echo generalizing distance with
  | nil => cases depth
  | @cons first frame γ frames head _ ih =>
      simp only [depthOf?, Setting.frames, List.map_cons, List.findIdx?_cons] at depth ⊢
      cases known : first.names.has a.old with
      | true =>
          obtain rfl : 0 = distance := by simpa [known] using depth
          obtain rfl : first = scope := by simpa using at_
          simp [head.has, known]
      | false =>
          obtain ⟨deeper, found, rfl⟩ : ∃ deeper, depthOf? a.old (Setting.frames γ) = some deeper ∧
              deeper + 1 = distance := by
            simpa [known, depthOf?, Setting.frames] using depth
          have unknown : frame.has (a.swapIn scope.declared a.old) = false := by
            have none : first.names.find? a.old = none := by simpa [Assoc.has] using known
            have := head.find?_or (fresh first List.mem_cons_self) differ becomes
            rw [none, or_self] at this
            simp [Assoc.has, this]
          have rest := ih (fun scope mem => fresh scope (List.mem_cons_of_mem _ mem)) found
            (by simpa using at_)
          simp only [depthOf?] at rest
          simp [unknown, rest]

private theorem Refers.becomes {table : Table} {id : NodeId} (h : a.Refers table γ id x x') :
    x ≠ a.name ∧ (x' = x ∨ x = a.old ∧ x' = a.name) := by
  obtain ⟨notNew, h⟩ := h
  refine ⟨notNew, ?_⟩
  cases known : table.distance? id with
  | none =>
      simp only [known] at h
      exact .inl h.2
  | some distance =>
      simp only [known] at h
      obtain ⟨scope, -, rfl⟩ := h
      by_cases same : x = a.old
      · subst same
        rw [swapIn_old]
        split
        · exact .inr ⟨rfl, rfl⟩
        · exact .inl rfl
      · exact .inl (a.swapIn_of_ne same notNew)

private theorem Refers.depthOf? {table : Table} {id : NodeId} {frames : List Frame}
    (h : a.Refers table γ id x x') (known : table.distance? id = depthOf? x γ.frames)
    (echo : List.Forall₂ a.Echo γ frames) (fresh : ∀ scope ∈ γ, scope.names.find? a.name = none) :
    depthOf? x' frames = depthOf? x γ.frames := by
  obtain ⟨notNew, h⟩ := h
  rw [known] at h
  by_cases same : x = a.old
  · subst same
    cases depth : Resolver.depthOf? a.old γ.frames with
    | none => simp [depth] at h
    | some distance =>
        simp only [depth] at h
        obtain ⟨scope, at_, rfl⟩ := h
        exact depthOf?_echo_old echo fresh notNew depth at_
  · have : x' = x := by
      cases depth : Resolver.depthOf? x γ.frames with
      | none =>
          simp only [depth] at h
          exact h.2
      | some distance =>
          simp only [depth] at h
          obtain ⟨scope, -, rfl⟩ := h
          exact a.swapIn_of_ne same notNew
    rw [this]
    exact depthOf?_echo_of_ne echo same notNew

/-! ### Single events -/

private theorem Tracks.note (h : a.Tracks γ r) {table : Table} {sort : Use} {id : NodeId}
    {name name' : Token} (refers : a.Refers table γ id name.lexeme name'.lexeme)
    (known : table.distance? id = Resolver.depthOf? name.lexeme γ.frames)
    (fresh : ∀ scope ∈ γ, scope.names.find? a.name = none)
    (quiet : (Event.use sort id name γ).fault? = none) :
    a.Leads r [.use sort id name γ] γ (r.note id name') := by
  rw [Resolver.note_eq, refers.depthOf? known h.frames fresh]
  refine ⟨⟨h.frames, h.inClass⟩, ?_, rfl⟩
  cases sort with
  | read | write => rfl
  | this =>
      have inside : γ.inClass = true := by simpa [Event.fault?] using quiet
      simp [Table.record, inside]

private theorem Tracks.not_pending (h : a.Tracks γ r) {table : Table} {id : NodeId}
    {name name' : Token} (refers : a.Refers table γ id name.lexeme name'.lexeme)
    (fresh : ∀ scope ∈ γ, scope.names.find? a.name = none)
    (quiet : (Event.use .read id name γ).fault? = none) : r.pending name' = false := by
  obtain ⟨notNew, becomes⟩ := refers.becomes
  have frames := h.frames
  unfold Resolver.pending
  generalize r.frames = found at frames
  cases frames with
  | nil => rfl
  | @cons scope frame _ _ head _ =>
      have settled : scope.names.find? name.lexeme ≠ some false := by
        simpa [Event.fault?] using quiet
      rcases head.find?_or (fresh scope List.mem_cons_self) notNew becomes with same | none
      · simpa [same] using settled
      · simp [none]

theorem Tracks.declare (h : a.Tracks γ r) {isVariable : Bool} {name name' : Token}
    (becomes : name'.lexeme = a.swapFor γ.outline? name.lexeme)
    (quiet : (Event.declare isVariable name γ).fault? = none) :
    a.Leads r [.declare isVariable name γ] (γ.announce name) (r.declare name') := by
  obtain ⟨frames, inClass⟩ := h
  obtain ⟨found, inClass', errors, table⟩ := r
  cases frames with
  | nil => exact ⟨⟨.nil, inClass⟩, rfl, rfl⟩
  | @cons scope frame γ _ head rest =>
      have new : scope.names.has name.lexeme = false := by simpa [Event.fault?] using quiet
      have becomes : name'.lexeme = a.swapIn scope.declared name.lexeme := becomes
      have new' : frame.has name'.lexeme = false := by rw [becomes, head.has, new]
      simp only [Resolver.declare, Setting.announce, new, new', Bool.false_eq_true, if_false]
      refine ⟨⟨.cons ?_ rest, inClass⟩, rfl, rfl⟩
      rw [becomes]
      exact head.insert name.lexeme false

theorem Tracks.define (h : a.Tracks γ r) {name name' : Token}
    (becomes : name'.lexeme = a.swapFor γ.outline? name.lexeme) :
    a.Leads r [] (γ.define name) (r.define name') := by
  obtain ⟨frames, inClass⟩ := h
  obtain ⟨found, inClass', errors, table⟩ := r
  cases frames with
  | nil => exact ⟨⟨.nil, inClass⟩, rfl, rfl⟩
  | @cons scope frame γ _ head rest =>
      have becomes : name'.lexeme = a.swapIn scope.declared name.lexeme := becomes
      refine ⟨⟨.cons ?_ rest, inClass⟩, rfl, rfl⟩
      rw [becomes]
      exact head.insert name.lexeme true

private theorem Tracks.introduce (h : a.Tracks γ r) {isVariable : Bool} {name name' : Token}
    (becomes : name'.lexeme = a.swapFor γ.outline? name.lexeme)
    (quiet : (Event.declare isVariable name γ).fault? = none) :
    a.Leads r [.declare isVariable name γ] (γ.introduce name) (r.introduce name') := by
  have declared := h.declare becomes quiet
  refine declared.trans (declared.tracks.define ?_)
  rw [becomes, (γ.alike_announce name).outline?]

theorem Tracks.outer (h : a.Tracks γ r) : List.Forall₂ a.Echo γ.tail r.frames.tail := by
  simpa using List.forall₂_drop 1 h.frames

theorem Leads.within {outer inner : Setting} {frame : Frame} {body : Resolver → Resolver}
    {events : List Event} (alike : outer.Alike inner) (tail : outer.tail = γ)
    (same : outer.inClass = γ.inClass)
    (inside : a.Leads { r with frames := frame :: r.frames } events inner
      (body { r with frames := frame :: r.frames })) :
    a.Leads r events γ (r.within frame body) where
  tracks := by
    refine ⟨?_, inside.tracks.inClass.trans (alike.inClass.trans same)⟩
    rw [← tail, ← alike.tail]
    exact inside.tracks.outer
  table := inside.table
  errors := inside.errors

theorem Tracks.push (h : a.Tracks γ r) (declared : List Token) :
    a.Tracks (γ.push declared) { r with frames := [] :: r.frames } :=
  ⟨.cons (fun _ => rfl) h.frames, h.inClass⟩

end Alias

/-! ### Trees -/

section

variable {a : Alias} {table : Table} {notThis : a.name ≠ "this"} {ρ : Renaming}
  {events : List Event}

theorem Setting.Sound.fresh {γ : Setting} (sound : γ.Sound events)
    (unused : ∀ ev ∈ events, ev.name.lexeme ≠ a.name) (notThis : a.name ≠ "this") :
    ∀ scope ∈ γ, scope.names.find? a.name = none := by
  intro scope mem
  obtain ⟨depth, -, known⟩ := sound.of_mem mem
  cases found : scope.names.find? a.name with
  | none => rfl
  | some flag =>
      rcases known.names (x := a.name) (by simp [Assoc.has, found]) with allowed | ⟨-, isThis⟩
      · obtain ⟨t, declared, same⟩ := List.mem_map.1 allowed
        obtain ⟨isVariable, γ', event, -⟩ := known.anchored t declared
        exact absurd same (unused _ event)
      · exact absurd isThis notThis

variable (follows : (aliasScheme a table notThis).Follows ρ events)
  (settles : table.Settles events) (unused : ∀ ev ∈ events, ev.name.lexeme ≠ a.name)

include follows

theorem Alias.Tracks.param {γ : Setting} {r : Resolver} (tracks : a.Tracks γ r)
    {isVariable : Bool} {name : Token} (event : .declare isVariable name γ ∈ events)
    (sound : γ.Sound events) (awaits : γ.Awaits [name]) :
    a.Leads r [.declare isVariable name γ] (γ.introduce name)
      (r.introduce (ρ.token isVariable name)) :=
  tracks.introduce (follows.declares event sound awaits).2 (follows.faultless _ event)

private theorem Alias.Tracks.params {params : List Token} {γ : Setting} {r : Resolver}
    (tracks : a.Tracks γ r) (sub : paramEvents params γ ⊆ events) (sound : γ.Sound events)
    (awaits : γ.Awaits params) :
    a.Leads r (paramEvents params γ) (params.foldl Setting.introduce γ)
      ((params.map ρ.declared).foldl Resolver.introduce r) := by
  induction params generalizing γ r with
  | nil => exact tracks.stay
  | cons p params ih =>
      obtain ⟨event, rest⟩ := List.cons_subset.1 sub
      obtain ⟨first, others⟩ := awaits.head
      have introduced := tracks.param follows event sound first
      exact introduced.trans (ih introduced.tracks rest (sound.introduce first)
        (others.of_outline (γ.alike_introduce p).outline?))

include settles unused

private theorem Alias.Tracks.use {γ : Setting} {r : Resolver} (tracks : a.Tracks γ r) {sort : Use}
    {id : NodeId} {name : Token} (event : .use sort id name γ ∈ events) (sound : γ.Sound events) :
    a.Leads r [.use sort id name γ] γ (r.note id (ρ.name γ.declared sort id name)) :=
  tracks.note (follows.refers event sound).2 (settles event) (sound.fresh unused notThis)
    (follows.faultless _ event)

set_option linter.unusedSectionVars false

mutual

theorem Expr.resolve_rename : ∀ (e : Expr) {γ : Setting} {r : Resolver}, e.Shaped →
    e.events γ ⊆ events → γ.Sound events → a.Tracks γ r →
    a.Leads r (e.events γ) γ ((e.rename ρ γ.declared).resolve r)
  | .literal _ _, _, _, _, _, _, tracks => tracks.stay
  | .array _ elements, _, _, shaped, sub, sound, tracks =>
      Expr.resolveAll_rename elements shaped sub sound tracks
  | .grouping inner, _, _, shaped, sub, sound, tracks =>
      inner.resolve_rename shaped sub sound tracks
  | .unary _ right, _, _, shaped, sub, sound, tracks =>
      right.resolve_rename shaped sub sound tracks
  | .binary left _ right, _, _, shaped, sub, sound, tracks =>
      have sub := List.append_subset.1 sub
      have first := left.resolve_rename shaped.1 sub.1 sound tracks
      first.trans (right.resolve_rename shaped.2 sub.2 sound first.tracks)
  | .logical left _ right, _, _, shaped, sub, sound, tracks =>
      have sub := List.append_subset.1 sub
      have first := left.resolve_rename shaped.1 sub.1 sound tracks
      first.trans (right.resolve_rename shaped.2 sub.2 sound first.tracks)
  | .ternary condition _ thenBranch _ elseBranch, _, _, shaped, sub, sound, tracks =>
      have sub := List.append_subset.1 sub
      have branches := List.append_subset.1 sub.2
      have first := condition.resolve_rename shaped.1 sub.1 sound tracks
      have second := thenBranch.resolve_rename shaped.2.1 branches.1 sound first.tracks
      have third := elseBranch.resolve_rename shaped.2.2 branches.2 sound second.tracks
      first.trans (second.trans third)
  | .bump operand _, _, _, shaped, sub, sound, tracks =>
      operand.resolve_rename shaped sub sound tracks
  | .ref id name, γ, r, _, sub, sound, tracks => by
      have event : .use .read id name γ ∈ events := sub List.mem_cons_self
      have quiet : r.pending (ρ.used γ.declared id name) = false :=
        tracks.not_pending (follows.refers event sound).2 (sound.fresh unused notThis)
          (follows.faultless _ event)
      simp only [Expr.rename, Expr.resolve, quiet, Bool.false_eq_true, if_false]
      exact tracks.use follows settles unused event sound
  | .assign id name value, γ, _, shaped, sub, sound, tracks =>
      have sub := List.append_subset.1 sub
      have event : .use .write id name γ ∈ events := sub.2 List.mem_cons_self
      have first := value.resolve_rename shaped sub.1 sound tracks
      first.trans (first.tracks.use follows settles unused event sound)
  | .get object _, _, _, shaped, sub, sound, tracks =>
      object.resolve_rename shaped sub sound tracks
  | .set object _ value, _, _, shaped, sub, sound, tracks =>
      have sub := List.append_subset.1 sub
      have first := object.resolve_rename shaped.1 sub.1 sound tracks
      first.trans (value.resolve_rename shaped.2 sub.2 sound first.tracks)
  | .subscript object index _, _, _, shaped, sub, sound, tracks =>
      have sub := List.append_subset.1 sub
      have first := object.resolve_rename shaped.1 sub.1 sound tracks
      first.trans (index.resolve_rename shaped.2 sub.2 sound first.tracks)
  | .call callee _ arguments, _, _, shaped, sub, sound, tracks =>
      have sub := List.append_subset.1 sub
      have first := callee.resolve_rename shaped.1 sub.1 sound tracks
      first.trans (Expr.resolveAll_rename arguments shaped.2 sub.2 sound first.tracks)
  | .this id keyword, γ, r, _, sub, sound, tracks => by
      have event : .use .this id keyword γ ∈ events := sub List.mem_cons_self
      have inside : r.inClass = true := by
        rw [tracks.inClass]
        simpa [Event.fault?] using follows.faultless _ event
      simp only [Expr.rename, Expr.resolve, inside, if_true]
      exact tracks.use follows settles unused event sound
  | .lambda routine, _, _, shaped, sub, sound, tracks =>
      routine.resolve_rename shaped sub sound tracks

theorem Expr.resolveAll_rename : ∀ (es : List Expr) {γ : Setting} {r : Resolver},
    Expr.ShapedAll es → Expr.eventsAll es γ ⊆ events → γ.Sound events → a.Tracks γ r →
    a.Leads r (Expr.eventsAll es γ) γ (Expr.resolveAll (Expr.renameAll ρ γ.declared es) r)
  | [], _, _, _, _, _, tracks => tracks.stay
  | e :: es, _, _, shaped, sub, sound, tracks =>
      have sub := List.append_subset.1 sub
      have first := e.resolve_rename shaped.1 sub.1 sound tracks
      first.trans (Expr.resolveAll_rename es shaped.2 sub.2 sound first.tracks)

theorem Expr.resolveOpt_rename : ∀ (e : Option Expr) {γ : Setting} {r : Resolver},
    Expr.ShapedOpt e → Expr.eventsOpt e γ ⊆ events → γ.Sound events → a.Tracks γ r →
    a.Leads r (Expr.eventsOpt e γ) γ (Expr.resolveOpt (Expr.renameOpt ρ γ.declared e) r)
  | none, _, _, _, _, _, tracks => tracks.stay
  | some e, _, _, shaped, sub, sound, tracks => e.resolve_rename shaped sub sound tracks

theorem Stmt.resolve_rename : ∀ (s : Stmt) {γ : Setting} {r : Resolver}, s.Shaped →
    s.events γ ⊆ events → γ.Sound events → γ.Awaits s.declared?.toList → a.Tracks γ r →
    a.Leads r (s.events γ) (s.after γ) ((s.rename ρ γ.declared).resolve r)
  | .expression e, _, _, shaped, sub, sound, _, tracks =>
      e.resolve_rename shaped sub sound tracks
  | .declare _ name initial, γ, r, shaped, sub, sound, awaits, tracks => by
      obtain ⟨event, rest⟩ := List.cons_subset.1 sub
      have becomes := (follows.declares event sound awaits).2
      have declared := tracks.declare becomes (follows.faultless _ event)
      have value := Expr.resolveOpt_rename initial shaped rest (sound.announce awaits)
        declared.tracks
      rw [(γ.alike_announce name).declared] at value
      have defined := value.tracks.define (by rw [(γ.alike_announce name).outline?]; exact becomes)
      have all := declared.trans (value.trans defined)
      rwa [List.append_nil] at all
  | .block body, γ, _, shaped, sub, sound, _, tracks =>
      have inside := sound.push follows.faultless (declared_body sub)
      have inner := Stmt.resolveAll_rename body shaped sub inside (γ.awaits_push _) (tracks.push _)
      .within (alike_afterAll body (γ.push _)) rfl rfl inner
  | .choice condition thenBranch elseBranch, γ, _, ⟨first, ⟨second, plain⟩, third⟩, sub, sound, _,
      tracks => by
      obtain ⟨sub, branches⟩ := List.append_subset.1 sub
      obtain ⟨sub₁, sub₂⟩ := List.append_subset.1 branches
      have tested := condition.resolve_rename first sub sound tracks
      have inner := thenBranch.resolve_rename second sub₁ sound (plain.awaits γ) tested.tracks
      rw [plain.after] at inner
      exact tested.trans
        (inner.trans (Stmt.resolveOpt_rename elseBranch third sub₂ sound inner.tracks))
  | .loop condition body _, γ, _, ⟨first, ⟨second, plain⟩, _⟩, sub, sound, _, tracks => by
      obtain ⟨sub, sub₁⟩ := List.append_subset.1 sub
      have tested := condition.resolve_rename first sub sound tracks
      have inner := body.resolve_rename second sub₁ sound (plain.awaits γ) tested.tracks
      rw [plain.after] at inner
      exact tested.trans inner
  | .repetition _ count step body, γ, _, ⟨first, second, third, plain⟩, sub, sound, _, tracks => by
      obtain ⟨sub, rest⟩ := List.append_subset.1 sub
      obtain ⟨sub₁, sub₂⟩ := List.append_subset.1 rest
      have counted := count.resolve_rename first sub sound tracks
      have stepped := step.resolve_rename second sub₁ sound counted.tracks
      have inner := body.resolve_rename third sub₂ sound (plain.awaits γ) stepped.tracks
      rw [plain.after] at inner
      exact counted.trans (stepped.trans inner)
  | .function routine, γ, r, ⟨named, shaped⟩, sub, sound, awaits, tracks => by
      obtain ⟨name, eq⟩ := Option.isSome_iff_exists.1 named
      obtain ⟨sub, rest⟩ := List.append_subset.1 sub
      simp only [eq, Option.elim_some, List.cons_subset] at sub rest
      simp only [Stmt.declared?, eq, Option.toList_some] at awaits
      have declared := tracks.param follows sub.1 sound awaits
      have inner := routine.resolve_rename shaped rest (sound.introduce awaits) declared.tracks
      rw [(γ.alike_introduce name).declared] at inner
      have same : (routine.rename ρ γ.declared).name = routine.name := by cases routine; rfl
      simp only [Stmt.rename, Stmt.resolve, Stmt.events, Stmt.after, Stmt.declared?, same, eq,
        Option.elim_some]
      exact declared.trans inner
  | .classDecl name methods, γ, r, shaped, sub, sound, awaits, tracks => by
      obtain ⟨event, rest⟩ := List.cons_subset.1 sub
      have declared := tracks.param follows event sound awaits
      have inside : a.Tracks (γ.introduce name).pushThis
          { r.introduce name with
            inClass := true, frames := [("this", true)] :: (r.introduce name).frames } :=
        ⟨.cons (fun z => by simp) declared.tracks.frames, rfl⟩
      have inner := Routine.resolveAll_rename methods shaped rest (sound.introduce awaits).pushThis
        inside
      simp only [Setting.declared, Setting.pushThis, List.map_cons] at inner
      rw [← Setting.declared, (γ.alike_introduce name).declared] at inner
      have same := tracks.inClass.trans (γ.alike_introduce name).inClass.symm
      exact declared.trans ⟨⟨inner.tracks.outer, same⟩, inner.table, inner.errors⟩
  | .ret _ value, _, _, shaped, sub, sound, _, tracks =>
      Expr.resolveOpt_rename value shaped sub sound tracks
  | .brk _, _, _, _, _, _, _, tracks => tracks.stay
  | .cont _, _, _, _, _, _, _, tracks => tracks.stay

private theorem Stmt.resolveAll_rename : ∀ (ss : List Stmt) {γ : Setting} {r : Resolver},
    Stmt.ShapedAll ss → Stmt.eventsAll ss γ ⊆ events → γ.Sound events →
    γ.Awaits (declaredBy ss) → a.Tracks γ r →
    a.Leads r (Stmt.eventsAll ss γ) (afterAll ss γ)
      (Stmt.resolveAll (Stmt.renameAll ρ γ.declared ss) r)
  | [], _, _, _, _, _, _, tracks => tracks.stay
  | s :: ss, γ, _, shaped, sub, sound, awaits, tracks => by
      obtain ⟨sub, rest⟩ := List.append_subset.1 sub
      obtain ⟨here, others⟩ := awaits.cons
      have first := s.resolve_rename shaped.1 sub sound here tracks
      have inner := Stmt.resolveAll_rename ss shaped.2 rest (sound.after here) others first.tracks
      rw [(s.alike_after γ).declared] at inner
      exact first.trans inner

theorem Stmt.resolveOpt_rename : ∀ (s : Option Stmt) {γ : Setting} {r : Resolver},
    Stmt.ShapedOpt s → Stmt.eventsOpt s γ ⊆ events → γ.Sound events → a.Tracks γ r →
    a.Leads r (Stmt.eventsOpt s γ) γ (Stmt.resolveOpt (Stmt.renameOpt ρ γ.declared s) r)
  | none, _, _, _, _, _, tracks => tracks.stay
  | some s, γ, _, ⟨shaped, plain⟩, sub, sound, tracks => by
      have inner := s.resolve_rename shaped sub sound (plain.awaits γ) tracks
      rwa [plain.after] at inner

theorem Routine.resolve_rename : ∀ (m : Routine) {γ : Setting} {r : Resolver}, m.Shaped →
    m.events γ ⊆ events → γ.Sound events → a.Tracks γ r →
    a.Leads r (m.events γ) γ ((m.rename ρ γ.declared).resolve r)
  | { name, params, body, isStatic, keyword }, γ, r, shaped, sub, sound, tracks => by
      obtain ⟨first, rest⟩ := List.append_subset.1 sub
      have declared := (declared_params first).append (declared_body rest)
      have inside := sound.push follows.faultless declared
      have awaits := γ.awaits_push (params ++ declaredBy body)
      have bound := (tracks.push _).params follows first inside awaits.left
      have inner := Stmt.resolveAll_rename body shaped rest (inside.introduceAll awaits.left)
        awaits.right.introduceAll bound.tracks
      rw [(alike_introduceAll params _).declared] at inner
      rw [Routine.rename, Routine.resolve, Routine.events]
      have alike := (alike_introduceAll params (γ.push (params ++ declaredBy body))).trans
        (alike_afterAll body _)
      exact .within alike rfl rfl (bound.trans inner)

theorem Routine.resolveAll_rename : ∀ (ms : List Routine) {γ : Setting} {r : Resolver},
    Routine.ShapedAll ms → Routine.eventsAll ms γ ⊆ events → γ.Sound events → a.Tracks γ r →
    a.Leads r (Routine.eventsAll ms γ) γ (Routine.resolveAll (Routine.renameAll ρ γ.declared ms) r)
  | [], _, _, _, _, _, tracks => tracks.stay
  | m :: ms, _, _, shaped, sub, sound, tracks =>
      have sub := List.append_subset.1 sub
      have first := m.resolve_rename shaped.1 sub.1 sound tracks
      first.trans (Routine.resolveAll_rename ms shaped.2 sub.2 sound first.tracks)

end

end

/-! ### Programs -/

private theorem resolveProgram_rename {a : Alias} {table : Table} {notThis : a.name ≠ "this"}
    {ρ : Renaming} {program : List Stmt}
    (follows : (aliasScheme a table notThis).Follows ρ (programEvents program))
    (settles : table.Settles (programEvents program))
    (unused : ∀ ev ∈ programEvents program, ev.name.lexeme ≠ a.name)
    (shaped : Stmt.ShapedAll program) (t : Table) :
    (resolveProgram (renameProgram ρ program) t).errors = [] ∧
      (resolveProgram (renameProgram ρ program) t).table = (resolveProgram program t).table := by
  have start : a.Tracks [] (Resolver.start t) := ⟨.nil, rfl⟩
  have leads := Stmt.resolveAll_rename follows settles unused program shaped (List.Subset.refl _)
    trivial nofun start
  refine ⟨leads.errors, ?_⟩
  rw [resolveProgram_eq shaped]
  exact leads.table

private theorem Alias.keeps_start {a : Alias} {library : Bool}
    (notGlobal : a.name ∉ predefined library) :
    a.Keeps (Chart.start library) (Chart.start library).scopes where
  size := rfl
  enclosing _ := rfl
  binding p z := by simp [Chart.start, Alias.swapFor]
  fresh p := by
    cases found : (Chart.start library).scopes.binding? p a.name with
    | none => rfl
    | some b => exact absurd (Chart.start_bound (by rw [found]; rfl)) notGlobal

private theorem Alias.machines_start {a : Alias} {library : Bool}
    (notGlobal : a.name ∉ predefined library)
    (notThis : a.name ≠ "this") (config : Config) (input : List UInt8) (clock : Clock) (t : Table)
    {r r' : Report} (same : r'.out = r.out) :
    (aliasScheme a t notThis).correspondence.MachineMatch (Chart.start library) Heap.globals
      { (Session.start config library input clock).machine with table := t, report := r }
      { (Session.start config library input clock).machine with table := t, report := r' } := by
  have stores : (aliasScheme a t notThis).correspondence.Stores (Chart.start library)
      (Chart.start library).scopes (Chart.start library).scopes :=
    ⟨rfl, Alias.keeps_start notGlobal⟩
  exact .start stores ⟨rfl, rfl⟩ same

theorem Legible.unused {source : List Token} {first next : NodeId} {program : List Stmt}
    (legible : Legible source first next program) {x : String} (notThis : x ≠ "this")
    (unused : ∀ t ∈ source, t.kind = .identifier → t.lexeme ≠ x) :
    ∀ ev ∈ programEvents program, ev.name.lexeme ≠ x := by
  intro ev mem
  have proper := legible.proper ev mem
  cases ev with
  | declare => exact unused _ proper.1 proper.2
  | use sort id name γ =>
      cases sort with
      | read | write => exact unused _ proper.1 proper.2
      | this =>
          have this : name.lexeme = "this" := legible.named _ mem
          exact fun same => notThis (same.symm.trans this)

/-! The conditions on a declaration can be computed. -/

private def Alias.declaredBy (a : Alias) : Event → Bool
  | .declare true t γ => t == a.declaration && !γ.isEmpty
  | _ => false

private def Alias.knownTo (a : Alias) (t : Table) : Event → Bool
  | .use _ id name _ => name.lexeme != a.old || (t.distance? id).isSome
  | _ => true

private theorem Alias.isLocal_of_declaredBy (a : Alias) {events : List Event} {ev : Event}
    (mem : ev ∈ events) (h : a.declaredBy ev = true) :
    ∃ γ, .declare true a.declaration γ ∈ events ∧ γ ≠ [] := by
  unfold Alias.declaredBy at h
  split at h
  next t γ =>
    obtain ⟨rfl, inside⟩ : t = a.declaration ∧ γ ≠ [] := by simpa using h
    exact ⟨γ, mem, inside⟩
  next => cases h

namespace Session

def printed (e : Status × Session) : Status × Sink := (e.1, e.2.report.out)

/-- A local variable can be renamed to any name that does not occur, as long as
all nodes of its name have a distance. -/
theorem run_rename {config : Config} {library : Bool} {input : List UInt8} {clock : Clock}
    {source : String} {program : List Stmt} {s : Session}
    (loads : ((start config library input clock).reading source).load source = (.ok program, s))
    {a : Alias} (isLocal : ∃ γ, .declare true a.declaration γ ∈ programEvents program ∧ γ ≠ [])
    (known : ∀ sort id name γ, .use sort id name γ ∈ programEvents program →
      name.lexeme = a.old → (s.machine.table.distance? id).isSome)
    (unused : ∀ t ∈ (Scan.ofText source).tokens, t.kind = .identifier → t.lexeme ≠ a.name)
    (notReserved : Keyword.ofSpelling? a.name = none) (notGlobal : a.name ∉ predefined library)
    (text : String) :
    let program' := renameProgram (a.toRenaming s.machine.table) program
    ∃ s', ((start config library input clock).reading text).resolve program' = (.ok program', s') ∧
      s'.machine.table = s.machine.table ∧
      ∀ fuel, (s'.interpret fuel program').map printed =
        ((start config library input clock).run fuel source).map printed := by
  intro program'
  obtain ⟨legible, -, resolves, machine⟩ := load_ok loads
  obtain ⟨settles, faultless⟩ := resolveProgram_settles legible.shaped legible.unambiguous
    (fun _ _ _ _ => Table.distance?_empty _) resolves
  have notThis : a.name ≠ "this" := by
    intro same
    rw [same] at notReserved
    revert notReserved
    decide
  have table : s.machine.table = (resolveProgram program .empty).table := by rw [machine]; rfl
  rw [← table] at settles
  have fresh := legible.unused notThis unused
  have suits : a.Suits s.machine.table (programEvents program) :=
    ⟨isLocal, fun event => known _ _ _ _ event, fresh⟩
  have follows := aliasScheme_follows suits legible.unambiguous legible.named settles faultless
    notThis
  obtain ⟨quiet, same⟩ := resolveProgram_rename follows settles fresh legible.shaped .empty
  let s₀ := start config library input clock
  obtain ⟨s', resolved, second⟩ : ∃ s', (s₀.reading text).resolve program' = (.ok program', s') ∧
      s'.machine = { s₀.machine with
        table := s.machine.table, report := (s₀.reading text).report } := by
    refine ⟨_, resolve_of_errors_eq_nil quiet, ?_⟩
    rw [table, ← same]
    rfl
  refine ⟨s', resolved, by rw [second], fun fuel => ?_⟩
  have first : s.machine = { s₀.machine with
      table := s.machine.table, report := (s₀.reading source).report } := by
    rw [table]
    exact machine
  have sides : (s₀.reading text).report.out = (s₀.reading source).report.out := rfl
  have machines := Alias.machines_start notGlobal notThis config input clock s.machine.table sides
  rw [← first, ← second] at machines
  have stmts := program_matches follows legible.shaped
  have ends := Scheme.interpret_agree _ machines (Chart.start_covers library) stmts fuel
  rw [run_of_load_ok loads]
  generalize s.interpret fuel program = e at ends ⊢
  generalize s'.interpret fuel program' = e' at ends ⊢
  cases ends with
  | none => rfl
  | some ended => exact congrArg some (Prod.ext ended.status ended.report)

/-- The inner one of two variables of the same name. -/
theorem run_rename_shadowing :
    let source := "{ var x; { var x; x = x; } x; }"
    let s₀ := start .standard true [] .ticking
    let a : Alias := ⟨⟨.identifier, "x", ⟨1, 16⟩⟩, "y"⟩
    ∃ program s, (s₀.reading source).load source = (.ok program, s) ∧
      (∃ γ, .declare true a.declaration γ ∈ programEvents program ∧ γ ≠ []) ∧
      (∀ sort id name γ, .use sort id name γ ∈ programEvents program →
        name.lexeme = a.old → (s.machine.table.distance? id).isSome) ∧
      ∃ s', (s₀.reading source).resolve (renameProgram (a.toRenaming s.machine.table) program) =
          (.ok (renameProgram (a.toRenaming s.machine.table) program), s') ∧
        s'.machine.table = s.machine.table ∧
        ∀ fuel, (s'.interpret fuel (renameProgram (a.toRenaming s.machine.table) program)).map
          printed = (s₀.run fuel source).map printed := by
  intro source s₀ a
  have check : (((s₀.reading source).loaded? source).any fun e =>
      (programEvents e.1).any a.declaredBy &&
        (programEvents e.1).all (a.knownTo e.2.machine.table)) = true := by decide +kernel
  obtain ⟨program, s, loads, fine⟩ := exists_load check
  obtain ⟨⟨ev, mem, declared⟩, all⟩ := by
    simpa only [Bool.and_eq_true, List.any_eq_true, List.all_eq_true] using fine
  have isLocal := a.isLocal_of_declaredBy mem declared
  have known : ∀ sort id name γ, .use sort id name γ ∈ programEvents program →
      name.lexeme = a.old → (s.machine.table.distance? id).isSome := by
    intro sort id name γ mem same
    simpa [Alias.knownTo, same] using all _ mem
  exact ⟨program, s, loads, isLocal, known, run_rename loads isLocal known (by decide +kernel)
    (by decide) (by decide +kernel) source⟩

end Session

end Treewalk
