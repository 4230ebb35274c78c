import Treewalk.Proofs.Running.Access
import Treewalk.Proofs.Running.Depth
import Treewalk.Proofs.Running.Timeouts

/-!
# Scopes that are left alone

Names are looked for in the scopes that lead outward from the present one, and nothing else is
ever written to, but new scopes.  So a scope that does not lie on the way outward is left as it is,
until the body of a routine is run that was written inside of it.  Here a run is halted when it
comes to the first body of that kind: what it has done by then, it has not done to the scope.
-/

namespace Treewalk

namespace Scopes

variable {s s' : Scopes} {place outer distance last : Nat} {x : String}

/-- Walking outward from `place` comes to the last scope. -/
def LeadsTo (s : Scopes) (place last : Nat) : Prop := ∃ distance, s.Hops place distance last

theorem Hops.add_le (h : s.Hops place distance last) : last + distance ≤ place := by
  induction h with
  | here => exact Nat.le_refl _
  | outward enclosing _ ih =>
      have older := enclosing?_lt enclosing
      omega

theorem LeadsTo.le (h : s.LeadsTo place last) : last ≤ place := by
  obtain ⟨distance, hops⟩ := h
  exact (Nat.le_add_right ..).trans hops.add_le

theorem Hops.lt (h : s.Hops place distance last) (there : last < s.records.size) :
    place < s.records.size := by
  cases h with
  | here => exact there
  | outward enclosing => exact s.enclosing?_lt_size enclosing

private theorem leadsTo_iff : s.LeadsTo place last ↔
    ((List.range (place + 1)).any fun distance => s.ancestor? place distance = some last) := by
  simp only [LeadsTo, List.any_eq_true, List.mem_range, decide_eq_true_eq, ancestor?_eq_some_iff]
  constructor
  · rintro ⟨distance, hops⟩
    have short := hops.add_le
    exact ⟨distance, by omega, hops⟩
  · rintro ⟨distance, -, hops⟩
    exact ⟨distance, hops⟩

instance (s : Scopes) (place last : Nat) : Decidable (s.LeadsTo place last) :=
  decidable_of_iff _ leadsTo_iff.symm

/-! ### The same way outward -/

private theorem enclosing?_eq (s : Scopes) (place : Nat) :
    s.enclosing? place = (s.link? place).filter (· < place) := by
  unfold enclosing? link?
  cases s.records[place]? <;> rfl

private theorem Links.enclosing? (links : s.Links s') (lt : place < s.records.size) :
    s'.enclosing? place = s.enclosing? place := by
  rw [enclosing?_eq, enclosing?_eq, links.same place lt]

theorem Hops.congr (h : s.Hops place distance last)
    (same : ∀ p ≤ place, s'.enclosing? p = s.enclosing? p) : s'.Hops place distance last := by
  induction h with
  | here => exact .here
  | outward enclosing _ ih =>
      have older := Nat.le_of_lt (enclosing?_lt enclosing)
      exact .outward ((same _ (Nat.le_refl _)).trans enclosing) (ih fun p le =>
        same p (le.trans older))

theorem Links.hops_iff (links : s.Links s') (lt : place < s.records.size) :
    s'.Hops place distance last ↔ s.Hops place distance last := by
  have same (p : Nat) (le : p ≤ place) : s'.enclosing? p = s.enclosing? p :=
    links.enclosing? (Nat.lt_of_le_of_lt le lt)
  exact ⟨fun h => h.congr fun p le => (same p le).symm, fun h => h.congr same⟩

theorem Links.leadsTo_iff (links : s.Links s') (lt : place < s.records.size) :
    s'.LeadsTo place last ↔ s.LeadsTo place last :=
  exists_congr fun _ => links.hops_iff lt

/-- From a new scope, the way outward is that of the scope around. -/
private theorem leadsTo_add (h : (s.add (some outer)).2.LeadsTo s.records.size last) :
    last = s.records.size ∨ s.LeadsTo outer last := by
  obtain ⟨distance, hops⟩ := h
  cases hops with
  | here => exact .inl rfl
  | outward enclosing hops =>
      rw [enclosing?_add, if_pos rfl] at enclosing
      obtain ⟨same, older⟩ := Option.filter_eq_some_iff.1 enclosing
      cases same
      exact .inr ⟨_, ((s.extends_add _).links.hops_iff (by simpa using older)).1 hops⟩

/-! ### Where names are found -/

private theorem leadsTo_of_owner? (h : s.owner? place x = some last) : s.LeadsTo place last := by
  induction place using Nat.strongRecOn with
  | ind place ih =>
      rw [owner?_eq] at h
      split at h
      next =>
        cases h
        exact ⟨0, .here⟩
      next =>
        obtain ⟨outer, enclosing, found⟩ := Option.bind_eq_some_iff.1 h
        obtain ⟨distance, hops⟩ := ih outer (enclosing?_lt enclosing) found
        exact ⟨distance + 1, .outward enclosing hops⟩

private theorem leadsTo_of_found? {table : Table} {id : NodeId} {b : Binding}
    (h : s.found? table place id x = some (last, b)) : s.LeadsTo place last := by
  unfold found? at h
  obtain ⟨q, found, bound⟩ := Option.bind_eq_some_iff.1 h
  obtain ⟨b', -, pair⟩ := Option.map_eq_some_iff.1 bound
  cases pair
  cases known : table.distance? id with
  | some distance =>
      rw [known] at found
      exact ⟨distance, ancestor?_eq_some_iff.1 found⟩
  | none =>
      rw [known] at found
      exact leadsTo_of_owner? found

theorem record_define (other : last ≠ place) (x : String) (v : Value) (mutable : Bool) :
    (s.define place x v mutable).records[last]? = s.records[last]? := by
  simp [define, update, Array.getElem?_modify, other.symm]

end Scopes

/-! ### Machines -/

/-- The scope is there, but names are not looked for in it. -/
structure Machine.Apart (r : Nat) (m : Machine) : Prop where
  scope : m.scope < m.heap.scopes.records.size
  there : r < m.heap.scopes.records.size
  outside : ¬ m.heap.scopes.LeadsTo m.scope r

/-- From one machine to the other, nothing has been done to the scope. -/
structure Machine.Spares (r : Nat) (m m' : Machine) : Prop where
  links : m.heap.scopes.Links m'.heap.scopes
  record : m'.heap.scopes.records[r]? = m.heap.scopes.records[r]?
  scope : m'.scope = m.scope

namespace Machine

variable {r : Nat} {m m' m'' : Machine} {scopes : Scopes}

theorem Spares.refl (r : Nat) (m : Machine) : m.Spares r m := ⟨.refl _, rfl, rfl⟩

theorem Spares.trans (first : m.Spares r m') (second : m'.Spares r m'') : m.Spares r m'' :=
  ⟨first.links.trans second.links, second.record.trans first.record,
    second.scope.trans first.scope⟩

theorem Spares.apart (h : m.Spares r m') (apart : m.Apart r) : m'.Apart r where
  scope := h.scope ▸ Nat.lt_of_lt_of_le apart.scope h.links.size
  there := Nat.lt_of_lt_of_le apart.there h.links.size
  outside leads := apart.outside ((h.links.leadsTo_iff apart.scope).1 (h.scope ▸ leads))

theorem Apart.ne (apart : m.Apart r) : r ≠ m.scope := by
  rintro rfl
  exact apart.outside ⟨0, .here⟩

theorem Apart.spares_extends (apart : m.Apart r) (grown : m.heap.scopes.Extends m'.heap.scopes)
    (scope : m'.scope = m.scope) : m.Spares r m' :=
  ⟨grown.links, grown.same r apart.there, scope⟩

theorem spares_define {place : Nat} (other : r ≠ place) (x : String) (v : Value)
    (mutable : Bool) : m.Spares r { m with heap := m.heap.define place x v mutable } :=
  ⟨m.heap.scopes.links_define .., Scopes.record_define other .., rfl⟩

/-- A new scope inside one that does not lead to `r` does not lead there either. -/
theorem Apart.not_leadsTo_new (apart : m.Apart r) {closure : Nat}
    (outside : ¬ m.heap.scopes.LeadsTo closure r)
    (links : (m.heap.scopes.add (some closure)).2.Links scopes) :
    m.heap.scopes.records.size < scopes.records.size ∧
      ¬ scopes.LeadsTo m.heap.scopes.records.size r := by
  have new : m.heap.scopes.records.size < (m.heap.scopes.add (some closure)).2.records.size := by
    simp
  refine ⟨Nat.lt_of_lt_of_le new links.size, fun leads => ?_⟩
  rcases Scopes.leadsTo_add ((links.leadsTo_iff new).1 leads) with same | leads
  · exact Nat.ne_of_lt apart.there same
  · exact outside leads

theorem Apart.inNew (apart : m.Apart r) {closure : Nat} {heap : Heap}
    (outside : ¬ m.heap.scopes.LeadsTo closure r)
    (links : (m.heap.scopes.add (some closure)).2.Links heap.scopes) :
    Apart r { m with heap := heap, scope := m.heap.scopes.records.size } :=
  have ⟨size, outside⟩ := apart.not_leadsTo_new outside links
  ⟨size, Nat.lt_trans apart.there size, outside⟩

end Machine

/-! ### Bodies inside a scope -/

def Code.closure? : Code → Option Nat
  | .builtin _ => none
  | .written _ scope => some scope

/-- The scope inside which a call runs statements; that of a class is the scope of its
initializer. -/
def Callable.closure? : Callable → Option Nat
  | .native _ _ => none
  | .function _ scope => some scope
  | .classObject c => c.initializer?.bind Code.closure?

/-- The task is a call that is neither too late nor too deep, and the body that it runs was written
inside the scope `r`. -/
def Task.RunsInside (r : Nat) : Task → Machine → Prop
  | .invoke c _ _, m =>
      (∃ closure ∈ c.closure?, m.heap.scopes.LeadsTo closure r) ∧
        Eval.isAnswer (Eval.checkTime m) ∧ m.depth < m.config.maxDepth
  | _, _ => False

instance (r : Nat) (t : Task) (m : Machine) : Decidable (t.RunsInside r m) :=
  match t with
  | .invoke c _ _ => inferInstanceAs (Decidable
      ((∃ closure ∈ c.closure?, m.heap.scopes.LeadsTo closure r) ∧
        Eval.isAnswer (Eval.checkTime m) ∧ m.depth < m.config.maxDepth))
  | .evaluate _ | .execute _ | .display _ _ => inferInstanceAs (Decidable False)

namespace Eval

variable {α β : Type} {r : Nat} {P Q : α → Prop} {m m₁ : Machine}
  {y : EStateM.Result Halt Machine α}

/-- The outcome spares the scope, and an answer satisfies the predicate. -/
structure EndsSparing (r : Nat) (Q : α → Prop) (m : Machine)
    (y : EStateM.Result Halt Machine α) : Prop where
  spares : m.Spares r (machineLeft y)
  answer : ∀ {a m'}, y = .ok a m' → Q a

namespace EndsSparing

theorem ok {a : α} (spares : m.Spares r m₁) (answer : Q a) : EndsSparing r Q m (.ok a m₁) := by
  refine ⟨spares, fun same => ?_⟩
  cases same
  exact answer

theorem error {e : Halt} (spares : m.Spares r m₁) : EndsSparing r Q m (.error e m₁) :=
  ⟨spares, nofun⟩

theorem mono (h : EndsSparing r P m y) (weaker : ∀ a, P a → Q a) : EndsSparing r Q m y :=
  ⟨h.spares, fun ends => weaker _ (h.answer ends)⟩

theorem bind {R : β → Prop} {x : Eval α} {f : α → Eval β} (first : EndsSparing r P m (x m))
    (second : ∀ a m', x m = .ok a m' → m.Spares r m' → P a → EndsSparing r R m' (f a m')) :
    EndsSparing r R m ((x >>= f) m) := by
  obtain ⟨spares, answer⟩ := first
  cases ends : x m with
  | error e m' =>
      rw [ends] at spares
      rw [bind_of_error ends]
      exact error spares
  | ok a m' =>
      rw [ends] at spares
      have later := second a m' ends spares (answer ends)
      rw [bind_of_ok ends]
      exact ⟨spares.trans later.spares, later.answer⟩

theorem adjusted {u : Machine → Machine} (inside : EndsSparing r Q m₁ y)
    (back : ∀ m', m₁.Spares r m' → m.Spares r (u m')) :
    EndsSparing r Q m (Eval.adjusted u y) := by
  have spares := back _ inside.spares
  cases y with
  | ok a m' => exact ok spares (inside.answer rfl)
  | error e m' => exact error spares

theorem after (spares : m.Spares r m₁) (h : EndsSparing r Q m₁ y) : EndsSparing r Q m y :=
  ⟨spares.trans h.spares, h.answer⟩

theorem inScope {x : Eval α} {scope : Nat}
    (inside : EndsSparing r Q { m with scope := scope } (x { m with scope := scope })) :
    EndsSparing r Q m (Eval.inScope scope x m) := by
  rw [inScope_eq]
  exact inside.adjusted fun m' spares => ⟨spares.links, spares.record, rfl⟩

private theorem caught {P : Completion → Prop} {Q : LoopFlow → Prop} {run : Runner} {body : Stmt}
    (h : EndsSparing r P m (run.execute body m)) (flows : ∀ c, P c → Q (.of c))
    (again : Q .again) : EndsSparing r Q m (loopBody run body m) := by
  obtain ⟨heap, scope, -, -⟩ := caughtEnd_left (run.execute body m)
  obtain ⟨spares, answer⟩ := h
  rw [loopBody_eq]
  refine ⟨⟨?_, ?_, ?_⟩, fun ends => ?_⟩
  · rw [heap]
    exact spares.links
  · rw [heap]
    exact spares.record
  · rw [scope]
    exact spares.scope
  · rcases caughtEnd_ok ends with rfl | ⟨c, m', full, rfl⟩
    · exact again
    · exact flows c (answer full)

private theorem writeName (apart : m.Apart r) (id : NodeId) (name : Token) (value : Value) :
    EndsSparing r (fun _ => True) m (Eval.writeName id name value m) := by
  rw [writeName_eq]
  split
  next => exact error (.refl r m)
  next found =>
    refine ok (Machine.spares_define (fun same => ?_) ..) trivial
    exact apart.outside (same ▸ Scopes.leadsTo_of_found? found)
  next => exact error (.refl r m)

end EndsSparing

def sparing (r : Nat) : Discipline Unit where
  toRegime := .lax .any
  -- The body of a routine runs inside the scope that it was written in, which may lead to `r`.
  enters := False
  Holds _ Q x := ∀ m, m.Apart r → EndsSparing r Q m (x () m)
  pure answer m _ := .ok (.refl r m) answer
  fail _ m _ := .error (.refl r m)
  escape _ m _ := .error (.refl r m)
  weaken h _ weaker m apart := (h m apart).mono weaker
  bind first second _ m apart := (first m apart).bind fun a m' _ spares answer =>
    second a answer m' (spares.apart apart)
  get _ h m apart := h m m.heap.of_any m apart
  step _ h m apart :=
    have ⟨answer, advances⟩ := h m m.heap.of_any
    .ok (apart.spares_extends advances.scopes advances.scope) answer
  print _ _ _ _ := .ok ⟨.refl _, rfl, rfl⟩ trivial
  prompt _ _ _ _ := .ok ⟨.refl _, rfl, rfl⟩ trivial
  writeName _ apart := .writeName apart ..
  declareName _ apart := .ok (Machine.spares_define apart.ne ..) trivial
  defineClass _ _ _ _ apart :=
    have second := (Scopes.record_define apart.ne ..).trans (Scopes.record_define apart.ne ..)
    .ok ⟨(Scopes.links_define ..).trans (Scopes.links_define ..), second, rfl⟩ trivial
  whileRendering place h m apart := by
    simp only [whileRendering_eq]
    have inside : Machine.Apart r { m with rendering := place :: m.rendering } :=
      ⟨apart.scope, apart.there, apart.outside⟩
    exact (h _ inside).adjusted fun m' spares => ⟨spares.links, spares.record, spares.scope⟩
  opened h m apart :=
    have spares : m.Spares r { m with heap := (m.heap.addScope m.scope).2 } :=
      apart.spares_extends (m.heap.scopes.extends_add _) rfl
    .after spares (.inScope (h _ (apart.inNew apart.outside (.refl _))))
  entered none := none.elim
  caught h flows again m apart := (h m apart).caught flows again

/-! ### Calls and runs -/

section

variable {run : Runner} {closure : Nat} {args : List Value} {site : Position}

theorem sparing_callRoutine (runs : (sparing r).Runs fun _ => run) (apart : m.Apart r)
    (outside : ¬ m.heap.scopes.LeadsTo closure r) (routine : Routine) (args : List Value) :
    EndsSparing r (fun _ => True) m (callRoutine run routine closure args m) := by
  let n := m.heap.scopes.records.size
  let heap := defineParams n routine.params args (m.heap.addScope closure).2
  have grown : m.heap.scopes.Extends heap.scopes :=
    (m.heap.scopes.extends_add _).defineParams (h := (m.heap.addScope closure).2)
      (Nat.le_refl _) ..
  have links := links_defineParams n routine.params args (m.heap.addScope closure).2
  have spares : m.Spares r { m with heap := heap } := apart.spares_extends grown rfl
  have body : (sparing r).Holds (Stmt.bindsAll routine.body)
      (·.Within (Stmt.escapesAll routine.body)) fun _ => sequence run routine.body :=
    Discipline.sequence (fun s _ => runs.execute fun _ _ => trivial) not_false.elim
  have inside := apart.inNew outside links
  refine .after spares (.bind (.inScope (body _ inside)) fun c m' _ _ _ => ?_)
  cases c with
  | normal | ret => exact .ok (.refl r m') trivial
  | brk | cont => exact .error (.refl r m')

private theorem sparing_callMethod (runs : (sparing r).Runs fun _ => run) (apart : m.Apart r)
    {code : Code} (outside : ∀ closure ∈ code.closure?, ¬ m.heap.scopes.LeadsTo closure r)
    (this : Value) : EndsSparing r (fun _ => True) m (callMethod run code this args site m) := by
  cases code with
  | builtin b => exact Discipline.callBuiltin runs.toServes trivial (fun _ => trivial) m apart
  | written routine scope =>
      -- The receiver is bound in a scope between the class and the body.
      have grown := m.heap.extends_bindScope scope this
      have links :
          (m.heap.scopes.add (some scope)).2.Links (m.heap.bindScope scope this).2.scopes :=
        Scopes.links_define ..
      have spares : m.Spares r { m with heap := (m.heap.bindScope scope this).2 } :=
        apart.spares_extends grown rfl
      have away := (apart.not_leadsTo_new (outside scope rfl) links).2
      exact .after spares (sparing_callRoutine runs (spares.apart apart) away routine args)

private theorem sparing_call (runs : (sparing r).Runs fun _ => run) (apart : m.Apart r)
    {c : Callable} (outside : ∀ closure ∈ c.closure?, ¬ m.heap.scopes.LeadsTo closure r) :
    EndsSparing r (fun _ => True) m (call run c args site m) := by
  cases c with
  | native b this => exact Discipline.callBuiltin runs.toServes trivial (fun _ => trivial) m apart
  | function routine closure =>
      exact sparing_callRoutine runs apart (outside closure rfl) routine args
  | classObject c =>
      have created : EndsSparing r (fun _ => True) m (onHeap (·.addObject c.blank) m) :=
        .ok ⟨.refl _, rfl, rfl⟩ trivial
      refine created.bind fun object m' ends spares _ => ?_
      cases ends
      cases found : c.initializer? with
      | none => exact .ok (.refl r _) trivial
      | some code =>
          have away : ∀ closure ∈ code.closure?, ¬ m.heap.scopes.LeadsTo closure r := by
            intro closure written
            exact outside closure (by simpa [Callable.closure?, found] using written)
          refine .bind (sparing_callMethod runs (spares.apart apart) away _) ?_
          exact fun _ m' _ _ _ => .ok (.refl r m') trivial

private theorem sparing_invoke (runs : (sparing r).Runs fun _ => run) (apart : m.Apart r)
    {c : Callable} (other : ¬ (Task.invoke c args site).RunsInside r m) :
    EndsSparing r (fun _ => True) m (invoke run c args site m) := by
  have time : EndsSparing r (fun _ => True) m (checkTime m) :=
    Discipline.checkTime (D := sparing r) m apart
  cases ends : checkTime m with
  | error e m' =>
      rw [ends] at time
      have late : invoke run c args site m = .error e m' := bind_of_error ends _
      rw [late]
      exact .error time.spares
  | ok u m' =>
      rw [ends] at time
      have spares : m.Spares r m' := time.spares
      obtain ⟨heap, -⟩ := checkTime_heap ends
      obtain ⟨depth, config⟩ := checkTime_keeps ends
      rw [invoke_of_time ends]
      split
      next => exact .error spares
      next shallow =>
        rw [depth, config, Nat.not_le] at shallow
        have outside : ∀ closure ∈ c.closure?, ¬ m'.heap.scopes.LeadsTo closure r := by
          intro closure written leads
          rw [heap] at leads
          exact other ⟨⟨closure, written, leads⟩, by simp [ends, isAnswer], shallow⟩
        have apart' := spares.apart apart
        have inside : Machine.Apart r { m' with depth := m'.depth + 1 } :=
          ⟨apart'.scope, apart'.there, apart'.outside⟩
        rw [asCall_eq]
        refine .after spares ((sparing_call runs inside outside).adjusted fun _ spares => ?_)
        exact ⟨spares.links, spares.record, spares.scope⟩

end

private theorem sparing_exhausted (r : Nat) : (sparing r).Patient := fun m _ => .error (.refl r m)

/-- A run that is halted before it runs the body of a routine inside the scope spares it. -/
private theorem sparing_interrupted (r fuel : Nat) :
    (sparing r).Runs fun _ => interrupted (Task.RunsInside r) halt fuel := by
  induction fuel with
  | zero =>
      exact ⟨⟨fun _ => sparing_exhausted r, sparing_exhausted r⟩, fun _ => sparing_exhausted r,
        fun _ => sparing_exhausted r⟩
  | succ fuel ih =>
      have goes {t : Task} {Q : t.Answer → Prop} {m : Machine}
          (layer : ¬ t.RunsInside r m →
            EndsSparing r Q m (layer fuel (interrupted (Task.RunsInside r) halt fuel) t m)) :
          EndsSparing r Q m (interrupted (Task.RunsInside r) halt (fuel + 1) t m) := by
        by_cases inside : t.RunsInside r m
        · rw [interrupted_of inside]
          exact .error (.refl r m)
        · rw [interrupted_of_not inside]
          exact layer inside
      refine ⟨⟨fun _ m apart => ?_, fun m apart => ?_⟩, fun fine m apart => ?_,
        fun fine m apart => ?_⟩
      · exact goes (t := .invoke _ _ _) fun other => sparing_invoke ih apart other
      · exact goes (t := .display _ _) fun _ => Discipline.display ih.toServes m apart
      · exact goes (t := .evaluate _) fun _ => Discipline.evaluate ih.toServes fine
          (fun e mem => ih.evaluate (fine.inner e mem)) m apart
      · exact goes (t := .execute _) fun _ => Discipline.execute ih.toServes fine
          (fun e mem => ih.evaluate (fine.inner e mem))
          (fun s mem => ih.execute (fine.branches s mem))
          (fun _ => .constant ih (sparing_exhausted r) fuel) m apart

theorem spares_of_not_comesTo {x : Runner → Eval α} {fuel : Nat} (apart : m.Apart r)
    (obeys : ∀ run, ((sparing r).Runs fun _ => run) → (sparing r).Fine fun _ => x run)
    (never : ¬ ComesTo (Task.RunsInside r) x fuel m) :
    m.Spares r (machineLeft (x (perform fuel) m)) := by
  have same : x (interrupted (Task.RunsInside r) halt fuel) m = x (perform fuel) m :=
    not_not.1 fun differs => never ⟨halt, differs⟩
  rw [← same]
  exact (obeys _ (sparing_interrupted r fuel) m apart).spares

end Eval

end Treewalk
