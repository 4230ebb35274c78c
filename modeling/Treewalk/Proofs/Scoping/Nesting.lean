import Treewalk.Proofs.Scoping.Lexical
import Treewalk.Proofs.Scoping.Noting

/-!
# Methods around a node

The scopes around a node are those of blocks and routines, and one for each
method that the node stands in: it binds `this`.  The distance that is noted for
a `this` leads to the scope of the innermost method around it.
-/

namespace Treewalk

/-- The scopes around a node, innermost first, without the global one; those that bind `this`
come with their methods. -/
abbrev Nesting := List (Option Routine)

/-- The node is somewhere in the program, with these scopes around it. -/
inductive Nested (program : List Stmt) : Nesting → Node → Prop where
  | top {s} : s ∈ program → Nested program [] (.stmt s)
  | operand {κ e e'} : Nested program κ (.expr e) → e' ∈ e.operands → Nested program κ (.expr e')
  | lambda {κ r} : Nested program κ (.expr (.lambda r)) → Nested program κ (.routine r)
  | inner {κ s e} : Nested program κ (.stmt s) → e ∈ s.inner → Nested program κ (.expr e)
  | arm {κ s s'} : Nested program κ (.stmt s) → s' ∈ s.arms → Nested program κ (.stmt s')
  | block {κ body s} : Nested program κ (.stmt (.block body)) → s ∈ body →
      Nested program (none :: κ) (.stmt s)
  | function {κ r} : Nested program κ (.stmt (.function r)) → Nested program κ (.routine r)
  | method {κ name methods m} : Nested program κ (.stmt (.classDecl name methods)) →
      m ∈ methods → Nested program (some m :: κ) (.routine m)
  | routine {κ r s} : Nested program κ (.routine r) → s ∈ r.body →
      Nested program (none :: κ) (.stmt s)

/-- The innermost method of a nesting, and the number of scopes inside its own. -/
def Nesting.Innermost (κ : Nesting) (distance : Nat) (m : Routine) : Prop :=
  κ.findIdx? Option.isSome = some distance ∧ κ[distance]? = some (some m)

abbrev Nesting.Fits (κ : Nesting) (layers : List Layer) : Prop :=
  List.Forall₂ (fun (m : Option Routine) layer => m.isSome = true ↔ layer = Layer.methods) κ layers

def Node.names : Node → List Token
  | .expr (.assign _ name _) | .expr (.bump (.ref _ name) _) => [name]
  | .expr _ => []
  | .stmt s => s.declared?.toList
  | .routine r => r.params

variable {program : List Stmt} {κ : Nesting} {node : Node}

theorem Nested.stands (h : Nested program κ node) :
    ∃ layers, Stands program layers node ∧ κ.Fits layers := by
  induction h with
  | top mem => exact ⟨[], .top mem, .nil⟩
  | operand _ mem ih =>
      obtain ⟨layers, stands, same⟩ := ih
      exact ⟨layers, stands.operand mem, same⟩
  | lambda _ ih =>
      obtain ⟨layers, stands, same⟩ := ih
      exact ⟨layers, stands.lambda, same⟩
  | inner _ mem ih =>
      obtain ⟨layers, stands, same⟩ := ih
      exact ⟨layers, stands.inner mem, same⟩
  | arm _ mem ih =>
      obtain ⟨layers, stands, same⟩ := ih
      exact ⟨layers, stands.arm mem, same⟩
  | block _ mem ih =>
      obtain ⟨layers, stands, same⟩ := ih
      obtain ⟨before, after, rfl⟩ := List.append_of_mem mem
      exact ⟨_, stands.block, .cons (by simp) same⟩
  | function _ ih =>
      obtain ⟨layers, stands, same⟩ := ih
      exact ⟨layers, stands.function, same⟩
  | method _ mem ih =>
      obtain ⟨layers, stands, same⟩ := ih
      exact ⟨_, stands.method mem, .cons (by simp) same⟩
  | routine _ mem ih =>
      obtain ⟨layers, stands, same⟩ := ih
      obtain ⟨before, after, body⟩ := List.append_of_mem mem
      exact ⟨_, stands.routine body, .cons (by simp) same⟩

theorem Nested.name_ne_this (h : Nested program κ node) (shaped : Stmt.ShapedAll program)
    (named : ∀ ev ∈ programEvents program, ev.Named) :
    ∀ name ∈ node.names, name.lexeme ≠ "this" := by
  obtain ⟨layers, stands, -⟩ := h.stands
  have placed := stands.placed shaped
  intro name mem
  cases node with
  | stmt s =>
      obtain ⟨-, γ, -, sub⟩ := placed
      obtain ⟨isVariable, event⟩ := Stmt.declared_event (Option.mem_toList.1 mem) γ
      exact named _ (sub event)
  | routine r =>
      obtain ⟨γ, declared⟩ := placed.declared rfl
      obtain ⟨isVariable, γ', event, -⟩ := declared.anchored (List.mem_append_left _ mem)
      exact named _ event
  | expr e =>
      obtain ⟨-, γ, -, sub⟩ := placed
      unfold Node.names at mem
      split at mem
      next id name' value same =>
        cases same
        obtain rfl := List.mem_singleton.1 mem
        exact named _ (sub (List.mem_append_right _ List.mem_cons_self))
      next id name' operator same =>
        cases same
        obtain rfl := List.mem_singleton.1 mem
        exact named _ (sub List.mem_cons_self)
      all_goals simp_all

/-! ### Distances of `this` -/

def Layer.isMethods : Layer → Bool
  | .methods => true
  | .body _ _ _ => false

theorem Layer.isMethods_iff {layer : Layer} : layer.isMethods = true ↔ layer = .methods := by
  cases layer <;> simp [isMethods]

private theorem Nearest.unique {layers : List Layer} {good : Layer → Prop} {a b : Option Nat}
    (h : Nearest layers good a) (h' : Nearest layers good b) : a = b :=
  Option.ext fun k => (h.found k).trans (h'.found k).symm

private theorem Nesting.Fits.findIdx? {layers : List Layer} (h : κ.Fits layers) :
    layers.findIdx? Layer.isMethods = κ.findIdx? Option.isSome := by
  induction h with
  | nil => rfl
  | cons first _ ih =>
      rw [List.findIdx?_cons, List.findIdx?_cons, ih, Bool.eq_iff_iff.2 (first.trans
        Layer.isMethods_iff.symm)]

theorem Nested.this_distance {id : NodeId} {keyword : Token}
    (h : Nested program κ (.expr (.this id keyword))) (shaped : Stmt.ShapedAll program)
    (named : ∀ ev ∈ programEvents program, ev.Named)
    (faultless : ∀ ev ∈ programEvents program, ev.fault? = none) {t : Table}
    (holds : t.Holds (programEvents program)) :
    keyword.lexeme = "this" ∧
      ∃ distance m, t.distance? id = some distance ∧ κ.Innermost distance m := by
  obtain ⟨layers, stands, fits⟩ := h.stands
  obtain ⟨-, γ, describes, sub⟩ := stands.placed shaped
  have event := sub (List.mem_singleton_self _)
  have this : keyword.lexeme = "this" := named _ event
  have inside : γ.inClass = true := by simpa [Event.fault?] using faultless _ event
  have entry : t.distance? id = Resolver.depthOf? keyword.lexeme γ.frames := by
    rw [holds _ event id rfl]
    simp [Event.depth?, inside]
  have nearest : Nearest layers (· = .methods) (t.distance? id) := by
    rw [entry, this]
    exact describes.nearest fun layer mem =>
      Layer.isSome_known?_this (stands.free shaped named layer mem)
  have distance : t.distance? id = κ.findIdx? Option.isSome := by
    rw [← fits.findIdx?]
    exact nearest.unique (nearest_findIdx? fun _ _ => Layer.isMethods_iff)
  have found : t.distance? id ≠ none := fun none =>
    nearest.missing.1 none _ (describes.inClass.1 inside) rfl
  obtain ⟨k, noted⟩ := Option.ne_none_iff_exists'.1 found
  rw [noted] at distance
  obtain ⟨lt, isSome, -⟩ := List.findIdx?_eq_some_iff_getElem.1 distance.symm
  obtain ⟨m, at_⟩ := Option.isSome_iff_exists.1 isSome
  exact ⟨this, k, m, noted, distance.symm, by rw [List.getElem?_eq_getElem lt, at_]⟩

/-! ### Programs of a session -/

namespace Session

variable {programs : List (List Stmt)} {s s' : Session} {source : String}

private theorem tree?_of_load (loads : s.load source = (.ok program, s')) :
    s.tree? source = some program := by
  unfold load at loads
  unfold tree?
  split at loads
  next read =>
    rw [read]
    unfold resolve at loads
    simp only at loads
    split at loads <;> cases loads
    rfl
  next => cases loads

theorem recalls_of_load (accounted : (s.reading source).Accounted programs)
    (stocked : (s.reading source).Stocked .any) (old : ∀ p ∈ programs, s.Recalls p)
    (loads : (s.reading source).load source = (.ok program, s')) :
    ∀ p ∈ program :: programs, s'.Recalls p := by
  refine List.forall_mem_cons.2 ⟨?_, fun p mem => ?_⟩
  · have recalls := Accounted.recalls accounted stocked (tree?_of_load loads)
    rwa [loads] at recalls
  · have recalls := Recalls.load (s := s.reading source) ((old p mem).mapReport _) source
    rwa [loads] at recalls

theorem History.recalls (history : s.History programs) : ∀ p ∈ programs, s.Recalls p := by
  induction history with
  | start => nofun
  | alter config report input clock _ ih => exact fun p mem => (ih p mem).alter ..
  | @run programs s s' fuel source status history ends ih =>
      have accounted : Accounted programs (s.reading source) := history.accounted.mapReport _
      have stocked : (s.reading source).Stocked .any :=
        (history.stocked fun _ _ _ _ => trivial).reading
      intro p mem
      rcases List.mem_append.1 mem with new | old
      · obtain ⟨⟨program, s₁⟩, loaded, rfl⟩ :=
          Option.map_eq_some_iff.1 (Option.mem_toList.1 new)
        have loads := load_of_loaded? loaded
        rw [run_of_load_ok loads] at ends
        exact (recalls_of_load accounted stocked ih loads _ List.mem_cons_self).interpret ends
      · exact (ih p old).run ends

end Session

end Treewalk
