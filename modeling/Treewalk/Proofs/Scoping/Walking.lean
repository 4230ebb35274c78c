import Treewalk.Proofs.Scoping.Matching
import Treewalk.Proofs.Scoping.Source

/-!
# Distances are a shortcut

In a program that declares no name twice, every name that has a distance is
bound in the scope at that distance and in no other scope around.  Walking
outward from scope to scope then finds what the table points at, so a run with
an empty table is the same run.
-/

namespace Treewalk

open Resolver (depthOf?)

def Outline.AllowsIn (global : String → Prop) : Option Outline → String → Prop
  | none, x => global x
  | some o, x => o.Allows x

/-- The name can only be bound in the scope at a distance, or is bound there and
can not be bound any nearer. -/
def Setting.Pins (global : String → Prop) (x : String) : Setting → Nat → Prop
  | [], _ => False
  | scope :: γ, 0 => scope.names.find? x = some true ∨
      (∀ scope ∈ γ, ¬ scope.outline.Allows x) ∧ ¬ global x
  | scope :: γ, distance + 1 => ¬ scope.outline.Allows x ∧ Setting.Pins global x γ distance

def Chart.Obeys (global : String → Prop) (c : Chart) : Prop :=
  ∀ {p x}, (c.scopes.binding? p x).isSome → Outline.AllowsIn global (c.outline p) x

namespace Chart

variable {global : String → Prop} {c : Chart} {place : Nat} {γ : Setting} {x : String}

private theorem Obeys.add (h : c.Obeys global) (o : Outline) : (c.add place o).Obeys global := by
  intro p x bound
  have old : (c.scopes.binding? p x).isSome := by simpa [Chart.add, Scopes.binding?_add] using bound
  obtain ⟨b, found⟩ := Option.isSome_iff_exists.1 old
  have lt : p < c.size := Scopes.binding?_lt _ found
  rw [(c.le_add place o).outline lt]
  exact h old

private theorem Obeys.define (h : c.Obeys global) (v : Value) (mutable : Bool)
    (allowed : Outline.AllowsIn global (c.outline place) x) :
    (c.define place x v mutable).Obeys global := by
  intro p z bound
  simp only [Chart.define, Scopes.binding?_define] at bound ⊢
  split at bound
  next here =>
    obtain ⟨rfl, rfl, -⟩ := here
    exact allowed
  next => exact h bound

theorem Obeys.free (h : c.Obeys global) {o : Option Outline} (outline : c.outline place = o)
    (other : ¬ Outline.AllowsIn global o x) : c.scopes.binding? place x = none := by
  cases found : c.scopes.binding? place x with
  | none => rfl
  | some b =>
      have allowed := h (p := place) (x := x) (by simp [found])
      rw [outline] at allowed
      exact absurd allowed other

private theorem Covers.owner?_eq_none (covers : c.Covers place γ) (obeys : c.Obeys global)
    (others : ∀ scope ∈ γ, ¬ scope.outline.Allows x) (notGlobal : ¬ global x) :
    c.scopes.owner? place x = none := by
  induction γ generalizing place with
  | nil =>
      obtain ⟨-, outline, enclosing⟩ := covers
      simp [Scopes.owner?_eq _ place, obeys.free outline notGlobal, enclosing]
  | cons scope γ ih =>
      obtain ⟨-, outline, -, outer, enclosing, rest⟩ := covers
      have free := obeys.free outline (others scope List.mem_cons_self)
      have outward := ih rest fun scope mem => others scope (List.mem_cons_of_mem _ mem)
      simp [Scopes.owner?_eq _ place, free, enclosing, outward]

private theorem Covers.walk (covers : c.Covers place γ) (obeys : c.Obeys global) {distance : Nat}
    (pins : γ.Pins global x distance) :
    ((c.scopes.owner? place x).bind fun q => (c.scopes.binding? q x).map (q, ·)) =
      (c.scopes.ancestor? place distance).bind fun q => (c.scopes.binding? q x).map (q, ·) := by
  induction γ generalizing place distance with
  | nil => exact pins.elim
  | cons scope γ ih =>
      obtain ⟨-, outline, bound, outer, enclosing, rest⟩ := covers
      cases distance with
      | zero =>
          cases here : c.scopes.binding? place x with
          | some b => simp [Scopes.owner?_eq _ place, Scopes.ancestor?, here]
          | none =>
              rcases pins with known | ⟨others, notGlobal⟩
              · have := bound known
                simp [here] at this
              · have outward := rest.owner?_eq_none obeys others notGlobal
                simp [Scopes.owner?_eq _ place, Scopes.ancestor?, here, enclosing, outward]
      | succ distance =>
          obtain ⟨notHere, pins⟩ := pins
          have free := obeys.free outline notHere
          simpa [Scopes.owner?_eq _ place, Scopes.ancestor?, free, enclosing] using ih rest pins

end Chart

private def walkingScheme (table : Table) (global : String → Prop) : Scheme where
  toLikeness := .exact
  Tables t t' := t = table ∧ t' = .empty
  Kept c s := s = c.scopes ∧ c.Obeys global
  kept_size := by rintro _ _ ⟨rfl, -⟩; rfl
  kept_add := by
    rintro c _ place o - ⟨rfl, obeys⟩
    exact ⟨rfl, obeys.add o⟩
  Names o x x' := x' = x ∧ Outline.AllowsIn global o x
  names_this := ⟨rfl, .inr ⟨rfl, rfl⟩⟩
  kept_define := by
    rintro c _ place x _ v mutable - ⟨rfl, allowed⟩ ⟨rfl, obeys⟩
    exact ⟨rfl, obeys.define v mutable allowed⟩
  Refers γ id x id' x' := id' = id ∧ x' = x ∧ table.distance? id = depthOf? x γ.frames ∧
    ∀ distance ∈ depthOf? x γ.frames, γ.Pins global x distance
  refers_blames := by rintro _ _ _ _ _ ⟨-, rfl, -⟩; exact ⟨rfl, rfl⟩
  refers_found := by
    rintro _ _ c _ place γ _ _ id x ⟨rfl, rfl⟩ ⟨rfl, obeys⟩ covers ⟨rfl, rfl, known, pins⟩
    unfold Scopes.found?
    rw [Table.distance?_empty, known]
    cases depth : depthOf? x γ.frames with
    | none => rfl
    | some distance => exact covers.walk obeys (pins distance depth)
  refers_names := by
    rintro _ _ c _ place γ id x _ _ q b - ⟨-, obeys⟩ - ⟨-, rfl, -⟩ found
    exact ⟨rfl, obeys (by rw [Scopes.found?_binding _ found]; rfl)⟩

/-! ### Programs that declare no name twice -/

def Event.declared? : Event → Option Token
  | .use _ _ _ _ => none
  | .declare _ name _ => some name

def declarations (events : List Event) : List Token := events.filterMap Event.declared?

theorem mem_declarations {events : List Event} {isVariable : Bool} {t : Token} {γ : Setting}
    (h : .declare isVariable t γ ∈ events) : t ∈ declarations events :=
  List.mem_filterMap.2 ⟨_, h, rfl⟩

structure DeclaredOnce (library : Bool) (events : List Event) : Prop where
  once : ∀ t ∈ declarations events, ∀ t' ∈ declarations events, t.lexeme = t'.lexeme → t = t'
  fresh : ∀ t ∈ declarations events, t.lexeme ∉ predefined library

instance (library : Bool) (events : List Event) : Decidable (DeclaredOnce library events) :=
  decidable_of_iff
    ((∀ t ∈ declarations events, ∀ t' ∈ declarations events, t.lexeme = t'.lexeme → t = t') ∧
      ∀ t ∈ declarations events, t.lexeme ∉ predefined library)
    ⟨fun h => ⟨h.1, h.2⟩, fun h => ⟨h.once, h.fresh⟩⟩

private def GlobalName (library : Bool) (events : List Event) (x : String) : Prop :=
  x ∈ predefined library ∨ ∃ isVariable t, .declare isVariable t [] ∈ events ∧ t.lexeme = x

section

variable {library : Bool} {events : List Event} (unambiguous : Unambiguous events)
  (named : ∀ ev ∈ events, ev.Named) (once : DeclaredOnce library events)

include unambiguous once

theorem DeclaredOnce.same_depth {isVariable isVariable' : Bool} {t t' : Token} {γ γ' : Setting}
    (h : .declare isVariable t γ ∈ events) (h' : .declare isVariable' t' γ' ∈ events)
    (same : t.lexeme = t'.lexeme) : γ.length = γ'.length := by
  obtain rfl := once.once t (mem_declarations h) t' (mem_declarations h') same
  cases unambiguous _ h _ h' rfl
  rfl

include named

private theorem DeclaredOnce.not_allows {scope scope' : Enclosure} {depth depth' : Nat}
    (sound : scope.Sound events depth) (sound' : scope'.Sound events depth')
    (apart : depth ≠ depth') {t : Token} (mem : t ∈ scope.declared) :
    ¬ scope'.outline.Allows t.lexeme := by
  obtain ⟨isVariable, γ, event, rfl⟩ := sound.anchored t mem
  rintro (allowed | ⟨-, isThis⟩)
  · obtain ⟨t', mem', same⟩ := List.mem_map.1 allowed
    obtain ⟨isVariable', γ', event', rfl⟩ := sound'.anchored t' mem'
    exact apart (once.same_depth unambiguous event event' same.symm)
  · exact named _ event isThis

private theorem DeclaredOnce.pins {γ : Setting} {x : String} (sound : γ.Sound events)
    {distance : Nat} (depth : depthOf? x γ.frames = some distance) :
    γ.Pins (GlobalName library events) x distance := by
  induction γ generalizing distance with
  | nil => cases depth
  | cons scope γ ih =>
      obtain ⟨here, rest⟩ := sound
      simp only [depthOf?, Setting.frames, List.map_cons, List.findIdx?_cons] at depth
      cases has : scope.names.has x with
      | true =>
          obtain rfl : 0 = distance := by simpa [has] using depth
          rcases here.names has with allowed | ⟨isThis, rfl⟩
          · obtain ⟨t, mem, rfl⟩ := List.mem_map.1 allowed
            refine .inr ⟨fun scope' mem' => ?_, ?_⟩
            · obtain ⟨deep, le, sound'⟩ := rest.of_mem mem'
              exact once.not_allows unambiguous named here sound' (by omega) mem
            · obtain ⟨isVariable, γ₁, event, length⟩ := here.anchored t mem
              rintro (library | ⟨isVariable', t', event', same⟩)
              · exact once.fresh t (mem_declarations event) library
              · have := once.same_depth unambiguous event event' same.symm
                simp [length] at this
          · exact .inl (here.this isThis).2
      | false =>
          obtain ⟨deeper, found, rfl⟩ : ∃ deeper, depthOf? x (Setting.frames γ) = some deeper ∧
              deeper + 1 = distance := by
            simpa [has, depthOf?, Setting.frames] using depth
          refine ⟨?_, ih rest found⟩
          obtain ⟨scope', at_, has'⟩ := depthOf?_eq_some found
          obtain ⟨deep, le, sound'⟩ := rest.of_mem (List.mem_of_getElem? at_)
          rintro (allowed | ⟨isThis, rfl⟩)
          · obtain ⟨t, mem, rfl⟩ := List.mem_map.1 allowed
            exact once.not_allows unambiguous named here sound' (by omega) mem (sound'.names has')
          · simp [Assoc.has, (here.this isThis).2] at has

private theorem walkingScheme_follows {table : Table} (settles : table.Settles events)
    (faultless : ∀ ev ∈ events, ev.fault? = none) :
    (walkingScheme table (GlobalName library events)).Follows .identity events where
  faultless := faultless
  refers {sort id name γ} event sound := by
    have same : Renaming.identity.name γ.declared sort id name = name := by cases sort <;> rfl
    rw [same]
    exact ⟨rfl, rfl, settles event, fun _ depth => once.pins unambiguous named sound depth⟩
  declares {isVariable name γ} event _ awaits := by
    have same : Renaming.identity.token isVariable name = name := by cases isVariable <;> rfl
    rw [same]
    refine ⟨rfl, ?_⟩
    cases γ with
    | nil => exact .inr ⟨isVariable, name, event, rfl⟩
    | cons scope γ =>
        have mem : name ∈ scope.declared := (List.cons_subset.1 (awaits _ rfl)).1
        exact .inl (List.mem_map_of_mem mem)

end

/-! ### Runs -/

namespace Session

/-- The session with all distances forgotten. -/
def forgetTable (s : Session) : Session := { s with machine := { s.machine with table := .empty } }

def outcome (e : Status × Session) : Status × Report := (e.1, e.2.report)

/-- A program that declares no name twice runs alike with its table and without. -/
theorem run_forgetTable {config : Config} {library : Bool} {input : List UInt8} {clock : Clock}
    {source : String} {program : List Stmt} {s : Session}
    (loads : ((start config library input clock).reading source).load source = (.ok program, s))
    (once : DeclaredOnce library (programEvents program)) (fuel : Nat) :
    (s.forgetTable.interpret fuel program).map outcome =
      ((start config library input clock).run fuel source).map outcome := by
  obtain ⟨legible, -, resolves, machine⟩ := load_ok loads
  obtain ⟨settles, faultless⟩ := resolveProgram_settles legible.shaped legible.unambiguous
    (fun _ _ _ _ => Table.distance?_empty _) resolves
  let global := GlobalName library (programEvents program)
  let S := walkingScheme (resolveProgram program .empty).table global
  have follows : S.Follows .identity (programEvents program) :=
    walkingScheme_follows legible.unambiguous legible.named once settles faultless
  have stmts := program_matches follows legible.shaped
  rw [renameProgram, Stmt.renameAll_identity] at stmts
  have stores : S.correspondence.Stores (Chart.start library)
      (Correspondence.newHeap library).scopes (Correspondence.newHeap library).scopes :=
    ⟨rfl, rfl, fun bound => .inl (Chart.start_bound bound)⟩
  have machines : S.correspondence.MachineMatch (Chart.start library) Heap.globals s.machine
      s.forgetTable.machine := by
    rw [forgetTable, machine]
    exact .start stores ⟨rfl, rfl⟩ rfl
  have ends := S.interpret_agree machines (Chart.start_covers library) stmts fuel
  rw [run_of_load_ok loads]
  generalize s.interpret fuel program = e at ends ⊢
  generalize s.forgetTable.interpret fuel program = e' at ends ⊢
  cases ends with
  | none => rfl
  | some ended => exact congrArg some (Prod.ext ended.status ended.report.symm)

/-- A closure over a local name, called where the name is out of scope. -/
theorem run_forgetTable_closure :
    let source := "var f; { var a = 1; f = lambda (b) -> a + b; } console.print(f(2));"
    ∃ program s,
      ((start .standard true [] .ticking).reading source).load source = (.ok program, s) ∧
      DeclaredOnce true (programEvents program) ∧ s.machine.table ≠ s.forgetTable.machine.table ∧
      (s.forgetTable.interpret 40 program).map (fun e => (e.1, e.2.report.out.lines)) =
        some (.ok, #["3"]) ∧
      ∀ fuel, (s.forgetTable.interpret fuel program).map outcome =
        ((start .standard true [] .ticking).run fuel source).map outcome := by
  intro source
  have check : ((((start .standard true [] .ticking).reading source).loaded? source).any fun e =>
      decide (DeclaredOnce true (programEvents e.1)) &&
        e.2.machine.table != e.2.forgetTable.machine.table &&
        (e.2.forgetTable.interpret 40 e.1).map (fun e => (e.1, e.2.report.out.lines)) ==
          some (.ok, #["3"])) = true := by decide +kernel
  obtain ⟨program, s, loads, fine⟩ := exists_load check
  simp only [Bool.and_eq_true, decide_eq_true_eq, bne_iff_ne, beq_iff_eq] at fine
  obtain ⟨⟨once, distances⟩, printed⟩ := fine
  exact ⟨program, s, loads, once, distances, printed, run_forgetTable loads once⟩

end Session

end Treewalk
