import Mathlib.Order.Bounds.Basic
import Treewalk.Proofs.Grammar.Growth
import Treewalk.Proofs.Scoping.Layers
import Treewalk.Proofs.Scoping.Source

/-!
# Static scoping

The distance of a name is the number of scopes inside the nearest one that
declares it, before the name or around it, and the resolver complains about
nothing but names that are declared twice, read in their own initial value, or
`this` outside of classes.  Neither depends on the way the resolver takes through
a program, and complaints do not change the distances.
-/

namespace Treewalk

open Resolver (depthOf?)

/-- The number of the innermost layer with a property, if there is one. -/
structure Nearest (layers : List Layer) (good : Layer → Prop) (distance : Option Nat) : Prop where
  found : ∀ k, distance = some k ↔ IsLeast {k | ∃ layer, layers[k]? = some layer ∧ good layer} k
  missing : distance = none ↔ ∀ layer ∈ layers, ¬ good layer

inductive Expr.Reads (x : String) : Expr → Prop where
  | ref {id name} : name.lexeme = x → Reads x (.ref id name)
  | operand {e e'} : e' ∈ e.operands → Reads x e' → Reads x e

/-- No scope declares a name twice, no local variable is read in its own initial value, and
`this` stands in classes only. -/
structure WellScoped (program : List Stmt) : Prop where
  distinct : ∀ {layers node tokens}, Stands program layers node → node.scope? = some tokens →
    (tokens.map Token.lexeme).Nodup
  initial : ∀ {layers mutable name e},
    Stands program layers (.stmt (.declare mutable name (some e))) → layers ≠ [] →
    ¬ e.Reads name.lexeme
  this : ∀ {layers id keyword}, Stands program layers (.expr (.this id keyword)) →
    .methods ∈ layers

/-! ### Distances -/

theorem nearest_findIdx? {layers : List Layer} {p : Layer → Bool} {good : Layer → Prop}
    (same : ∀ layer ∈ layers, p layer = true ↔ good layer) :
    Nearest layers good (layers.findIdx? p) := by
  refine ⟨fun k => ?_, ?_⟩
  · rw [List.findIdx?_eq_some_iff_getElem]
    constructor
    · rintro ⟨lt, here, before⟩
      refine ⟨⟨layers[k], List.getElem?_eq_getElem lt, (same _ (List.getElem_mem lt)).1 here⟩, ?_⟩
      rintro j ⟨layer, at_, holds⟩
      by_contra less
      obtain ⟨lt', rfl⟩ := List.getElem?_eq_some_iff.1 at_
      exact before j (Nat.lt_of_not_le less) ((same _ (List.getElem_mem lt')).2 holds)
    · rintro ⟨⟨layer, at_, holds⟩, least⟩
      obtain ⟨lt, rfl⟩ := List.getElem?_eq_some_iff.1 at_
      refine ⟨lt, (same _ (List.getElem_mem lt)).2 holds, fun j less found => ?_⟩
      have lt' := Nat.lt_trans less lt
      have good' := (same _ (List.getElem_mem lt')).1 found
      have le := least ⟨layers[j], List.getElem?_eq_getElem lt', good'⟩
      omega
  · rw [List.findIdx?_eq_none_iff]
    exact forall₂_congr fun layer mem => by rw [← same layer mem, Bool.not_eq_true]

theorem Describe.nearest {layers : List Layer} {γ : Setting} (h : Describe layers γ) {x : String}
    {good : Layer → Prop}
    (same : ∀ layer ∈ layers, (layer.known? x).isSome = true ↔ good layer) :
    Nearest layers good (depthOf? x γ.frames) := by
  have eq : depthOf? x γ.frames = layers.findIdx? fun layer => (layer.known? x).isSome := by
    clear same
    induction h with
    | nil => rfl
    | cons first _ ih =>
        simp only [depthOf?, Setting.frames] at ih ⊢
        simp [List.findIdx?_cons, Assoc.has, first.names, ih]
  rw [eq]
  exact nearest_findIdx? same

theorem Describe.inClass {layers : List Layer} {γ : Setting} (h : Describe layers γ) :
    γ.inClass = true ↔ .methods ∈ layers := by
  induction h with
  | nil => simp [Setting.inClass]
  | cons first _ ih =>
      simp only [Setting.inClass] at ih ⊢
      rw [List.any_cons, Bool.or_eq_true, ih, first.this, List.mem_cons]
      exact or_congr_left eq_comm

section

variable {program : List Stmt} {layers : List Layer}

theorem Stands.free {node : Node} (h : Stands program layers node)
    (shaped : Stmt.ShapedAll program) (named : ∀ ev ∈ programEvents program, ev.Named) :
    ∀ layer ∈ layers, ¬ layer.Declares "this" := by
  -- What a layer declares is declared by the scope that a node opens.
  have layer {layers node params before here after}
      (stands : Stands program layers node)
      (opens : node.scope? = some (params ++ declaredBy (before ++ here :: after))) :
      ¬ (Layer.body params before here).Declares "this" := by
    intro declares
    obtain ⟨t, mem, this⟩ := List.mem_map.1 declares
    obtain ⟨γ, all⟩ := (stands.placed shaped).declared opens
    have mem : t ∈ params ++ declaredBy (before ++ here :: after) := by
      simp only [Layer.declared, List.mem_append] at mem
      simp only [declaredBy, List.filterMap_append, List.filterMap_cons, List.mem_append] at mem ⊢
      grind
    obtain ⟨isVariable, γ', event, -⟩ := all.anchored mem
    exact named _ event this
  induction h with
  | top => simp
  | operand _ _ ih | lambda _ ih | inner _ _ ih | arm _ _ ih | function _ ih => exact ih
  | block stands ih => exact List.forall_mem_cons.2 ⟨layer stands rfl, ih⟩
  | method _ _ ih => exact List.forall_mem_cons.2 ⟨by simp [Layer.Declares, Layer.declared], ih⟩
  | routine stands body ih =>
      exact List.forall_mem_cons.2 ⟨layer stands (by rw [Node.scope?, body]), ih⟩

private theorem Stands.initial {node : Node} (h : Stands program layers node) {params : List Token}
    {before : List Stmt} {mutable : Bool} {name : Token} {value : Option Expr}
    {outer : List Layer}
    (here : layers = .body params before (.declare mutable name value) :: outer) :
    match node with
    | .stmt s => s = .declare mutable name value
    | .expr e => ∃ e', value = some e' ∧
        Stands program layers (.stmt (.declare mutable name (some e'))) ∧
        ∀ x, e.Reads x → e'.Reads x
    | .routine _ => True := by
  induction h with
  | top => cases here
  | lambda | function | method => trivial
  | operand _ mem ih =>
      obtain ⟨e', eq, stands, reads⟩ := ih here
      exact ⟨e', eq, stands, fun x h => reads x (.operand mem h)⟩
  | inner stands mem ih =>
      rw [ih here] at stands mem
      obtain rfl := Option.mem_toList.1 mem
      exact ⟨_, rfl, stands, fun _ => id⟩
  | arm _ mem ih =>
      rw [ih here] at mem
      cases mem
  | block | routine =>
      cases here
      rfl

/-! ### Faults -/

private theorem Expr.Reads.event {e : Expr} {x : String} (h : e.Reads x) (γ : Setting) :
    ∃ id name, .use .read id name γ ∈ e.events γ ∧ name.lexeme = x := by
  induction h with
  | ref same => exact ⟨_, _, List.mem_singleton_self _, same⟩
  | operand mem _ ih =>
      obtain ⟨id, name, event, same⟩ := ih
      exact ⟨id, name, Expr.events_operand mem γ event, same⟩

private theorem wellScoped_of_faultless (shaped : Stmt.ShapedAll program)
    (faultless : ∀ ev ∈ programEvents program, ev.fault? = none) : WellScoped program where
  distinct stands opens := by
    obtain ⟨γ, all⟩ := (stands.placed shaped).declared opens
    exact (all.distinct faultless).1
  initial {layers mutable name e} stands inside reads := by
    obtain ⟨-, γ, describes, sub⟩ := stands.placed shaped
    obtain ⟨declared, initial⟩ := List.cons_subset.1 sub
    cases γ with
    | nil => exact inside (List.forall₂_nil_right_iff.1 describes)
    | cons scope γ =>
        have unknown : scope.names.has name.lexeme = false := by
          simpa [Event.fault?] using faultless _ declared
        obtain ⟨id, used, event, same⟩ := reads.event (Setting.announce name (scope :: γ))
        have quiet := faultless _ (initial event)
        simp [Setting.announce, unknown, Event.fault?, same] at quiet
  this stands := by
    obtain ⟨-, γ, describes, sub⟩ := stands.placed shaped
    have quiet := faultless _ (sub (List.mem_singleton_self _))
    rw [← describes.inClass]
    simpa [Event.fault?] using quiet

private theorem WellScoped.faultless (h : WellScoped program) {ev : Event}
    (traced : ev.Traced program) :
    ev.fault? = none := by
  cases ev with
  | declare isVariable name γ =>
      rcases traced with rfl | ⟨layers, node, earlier, later, all, outer, stands, opens, rfl⟩
      · rfl
      · have distinct := h.distinct stands opens
        obtain ⟨scope, eq, -, find⟩ :=
          Setting.introduceAll_cons earlier ⟨false, all, []⟩ outer
        have new : name.lexeme ∉ earlier.map Token.lexeme := by
          rw [List.map_append, List.nodup_append] at distinct
          exact fun mem => distinct.2.2 _ mem _ (by simp) rfl
        rw [Setting.push, eq]
        simp only [Event.fault?, Assoc.has, find, if_neg new]
        rfl
  | use sort id name γ =>
      cases sort with
      | write => rfl
      | this =>
          obtain ⟨layers, stands, describes⟩ := traced
          simp [Event.fault?, describes.inClass.2 (h.this stands)]
      | read =>
          obtain ⟨layers, stands, describes⟩ := traced
          cases describes with
          | nil => rfl
          | @cons layer scope outer γ first rest =>
              have settled : layer.known? name.lexeme ≠ some false := by
                intro waits
                obtain ⟨params, before, mutable, own, value, rfl, same⟩ :=
                  Layer.known?_eq_false waits
                obtain ⟨e, -, declares, reads⟩ := stands.initial rfl
                exact h.initial declares (List.cons_ne_nil _ _) (reads _ (.ref same.symm))
              simp [Event.fault?, first.names, settled]

private theorem resolveProgram_errors_eq_nil_iff (shaped : Stmt.ShapedAll program) (table : Table) :
    (resolveProgram program table).errors = [] ↔ WellScoped program := by
  have quiet : (resolveProgram program table).errors = [] ↔
      ∀ ev ∈ programEvents program, ev.fault? = none := by
    simp [resolveProgram_eq shaped, Resolver.reach, Resolver.start]
  rw [quiet]
  exact ⟨wellScoped_of_faultless shaped,
    fun fine ev mem => fine.faultless (programEvents_traced shaped ev mem)⟩

/-! ### Programs of a text -/

section

variable {source : List Token} {first next : NodeId} (legible : Legible source first next program)
  {table : Table} (fresh : ∀ id, first ≤ id → table.distance? id = none)

include legible fresh

theorem Legible.distance? {sort : Use} {id : NodeId} {name : Token} {γ : Setting}
    (event : .use sort id name γ ∈ programEvents program) :
    (resolveProgram program table).table.distance? id = (Event.use sort id name γ).depth? := by
  rw [resolveProgram_eq legible.shaped]
  exact Table.distance?_of_mem legible.unambiguous
    (fun ev mem id mark => fresh id (legible.numbered ev mem id mark).1) event rfl

private theorem Legible.nearest_name {sort : Use} {id : NodeId} {name : Token} {γ : Setting}
    (event : .use sort id name γ ∈ programEvents program) (isName : sort ≠ .this)
    (describes : Describe layers γ) :
    Nearest layers (·.Declares name.lexeme)
      ((resolveProgram program table).table.distance? id) := by
  have named := legible.named _ event
  rw [legible.distance? fresh event]
  cases sort with
  | read | write => exact describes.nearest fun layer _ => Layer.isSome_known? named
  | this => contradiction

private theorem Legible.nearest_this {id : NodeId} {keyword : Token}
    (stands : Stands program layers (.expr (.this id keyword))) :
    Nearest layers (· = .methods) ((resolveProgram program table).table.distance? id) := by
  obtain ⟨-, γ, describes, sub⟩ := stands.placed legible.shaped
  have event := sub (List.mem_singleton_self _)
  have this : keyword.lexeme = "this" := legible.named _ event
  have nearest : Nearest layers (· = .methods) (depthOf? keyword.lexeme γ.frames) :=
    describes.nearest fun layer mem => by
      rw [this]
      exact Layer.isSome_known?_this (stands.free legible.shaped legible.named layer mem)
  rw [legible.distance? fresh event, Event.depth?]
  cases inside : γ.inClass with
  | true => exact nearest
  | false =>
      have outside : .methods ∉ layers := by simp [← describes.inClass, inside]
      have absent := nearest.missing.2 fun layer mem same => outside (same ▸ mem)
      rwa [absent] at nearest

end

end

theorem Scan.legible (source : String) (first : NodeId) :
    Legible (Scan.ofText source).tokens first ((Scan.ofText source).parse first).nextId
      ((Scan.ofText source).parse first).program := by
  obtain ⟨s', next, grown⟩ := parseTokens_grown (Scan.ofText source).tokens
    (Scan.ofText source).finish first
  rw [Scan.parse, next]
  exact .of_numbered grown.shaped grown.numbered

/-- The resolver computes static scoping: distances are those to the nearest scope that declares
the name, and a program has no errors if and only if it is well scoped. -/
theorem resolveProgram_lexical (source : String) (first : NodeId) (table : Table)
    (fresh : ∀ id, first ≤ id → table.distance? id = none) :
    let program := ((Scan.ofText source).parse first).program
    let resolved := resolveProgram program table
    (∀ layers id name, Stands program layers (.expr (.ref id name)) →
      Nearest layers (·.Declares name.lexeme) (resolved.table.distance? id)) ∧
    (∀ layers id name value, Stands program layers (.expr (.assign id name value)) →
      Nearest layers (·.Declares name.lexeme) (resolved.table.distance? id)) ∧
    (∀ layers id keyword, Stands program layers (.expr (.this id keyword)) →
      Nearest layers (· = .methods) (resolved.table.distance? id)) ∧
    (resolved.errors = [] ↔ WellScoped program) := by
  intro program resolved
  have legible := Scan.legible source first
  refine ⟨fun layers id name stands => ?_, fun layers id name value stands => ?_,
    fun layers id keyword stands => legible.nearest_this fresh stands,
    resolveProgram_errors_eq_nil_iff legible.shaped table⟩
  · obtain ⟨-, γ, describes, sub⟩ := stands.placed legible.shaped
    exact legible.nearest_name fresh (sub (List.mem_singleton_self _)) nofun describes
  · obtain ⟨-, γ, describes, sub⟩ := stands.placed legible.shaped
    have event := sub (List.mem_append_right _ (List.mem_singleton_self _))
    exact legible.nearest_name fresh event nofun describes

/-- A name that is read in a lambda, in a block with one statement before it, and the scopes
around the name. -/
private def closureRead? : List Stmt → Option (List Layer × NodeId × Token)
  | [.block [first, .expression (.lambda r)]] =>
      match r.body with
      | [.ret keyword (some (.ref id name))] =>
          some ([.body r.params [] (.ret keyword (some (.ref id name))),
            .body [] [first] (.expression (.lambda r))], id, name)
      | _ => none
  | _ => none

private theorem stands_of_closureRead? {program : List Stmt} {layers : List Layer} {id : NodeId}
    {name : Token} (h : closureRead? program = some (layers, id, name)) :
    Stands program layers (.expr (.ref id name)) := by
  unfold closureRead? at h
  split at h
  next first r =>
    split at h
    next body =>
      cases h
      have block : Stands [.block [first, .expression (.lambda r)]] []
          (.stmt (.block ([first] ++ [.expression (.lambda r)]))) :=
        .top (List.mem_singleton_self _)
      have lambda := (block.block.inner (List.mem_singleton_self _)).lambda
      exact .inner (.routine lambda body) (List.mem_singleton_self _)
    next => cases h
  next => cases h

/-- A name from outside of a lambda that is read inside. -/
theorem resolveProgram_lexical_closure :
    let program := ((Scan.ofText "{ var a; lambda (b) -> a; }").parse 0).program
    let resolved := resolveProgram program .empty
    (∀ id, 0 ≤ id → Table.empty.distance? id = none) ∧
    ∃ layers id name, Stands program layers (.expr (.ref id name)) ∧
      resolved.table.distance? id = some 1 ∧
      IsLeast {k | ∃ layer, layers[k]? = some layer ∧ layer.Declares name.lexeme} 1 ∧
      WellScoped program := by
  intro program resolved
  have fresh : ∀ id, 0 ≤ id → Table.empty.distance? id = none := fun _ _ => Table.distance?_empty _
  have check : ((closureRead? program).any fun found =>
      resolved.table.distance? found.2.1 == some 1) = true ∧ resolved.errors = [] := by
    decide +kernel
  obtain ⟨⟨layers, id, name⟩, found, noted⟩ := (Option.any_eq_true _ _).1 check.1
  have stands := stands_of_closureRead? found
  obtain ⟨reads, -, -, errors⟩ :=
    resolveProgram_lexical "{ var a; lambda (b) -> a; }" 0 .empty fresh
  have distance : resolved.table.distance? id = some 1 := by simpa using noted
  exact ⟨fresh, layers, id, name, stands, distance,
    ((reads layers id name stands).found 1).1 distance, errors.1 check.2⟩

end Treewalk
