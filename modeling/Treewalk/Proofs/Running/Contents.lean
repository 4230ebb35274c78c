import Treewalk.Proofs.Running.Soundness

/-!
# Contents of objects

Text objects carry a text, arrays their elements, and other objects nothing that built-in
operations could see.  So there is nothing that an operation could miss in its receiver.
-/

namespace Treewalk

/-- The object carries what its class asks for. -/
structure Object.Matches (o : Object) : Prop where
  text : o.cls = stringClass → ∃ text, o.content = .text text
  array : o.cls = arrayClass → ∃ elements, o.content = .array elements
  plain : o.cls ≠ stringClass → o.cls ≠ arrayClass → o.content = .none

def Heap.Matches (h : Heap) : Prop :=
  ∀ {p : Nat} {o : Object}, h.objects[p]? = some o → o.Matches

namespace Heap

variable {programs : List (List Stmt)} {h : Heap}

private theorem Knows.content {c : Class} (knows : h.Knows programs c) :
    c = stringClass ∨ c = arrayClass ∨ c.content = .plain := by
  cases knows with
  | string => exact .inl rfl
  | array => exact .inr (.inl rfl)
  | math | console | written => exact .inr (.inr rfl)

private theorem Sound.matches (sound : h.Sound programs) : h.Matches := by
  intro p o there
  have bears := sound.objects there
  have suits := bears.content
  refine ⟨fun cls => ?_, fun cls => ?_, fun notText notArray => ?_⟩
  · rw [cls] at suits
    cases content : o.content with
    | text s => exact ⟨s, rfl⟩
    | none | array => simp [content, stringClass, builtinClass] at suits
  · rw [cls] at suits
    cases content : o.content with
    | array elements => exact ⟨elements, rfl⟩
    | none | text => simp [content, arrayClass, builtinClass] at suits
  · have plain := ((sound.knows bears).content.resolve_left notText).resolve_left notArray
    rw [plain] at suits
    cases content : o.content with
    | none => rfl
    | text | array => simp [content] at suits

def IsText (h : Heap) (v : Value) : Prop :=
  ∃ (p : Nat) (text : String), v = .object p ∧ h.objects[p]? = some ⟨stringClass, [], .text text⟩

def IsArray (h : Heap) (v : Value) : Prop :=
  ∃ (p : Nat) (elements : Array Value),
    v = .object p ∧ h.objects[p]? = some ⟨arrayClass, [], .array elements⟩

end Heap

namespace Eval

variable {α β : Type}

/-- All answers of the computation satisfy the predicate in the heap that is left. -/
def Yields (P : Heap → α → Prop) (x : Eval α) : Prop := ∀ m a m', x m = .ok a m' → P m'.heap a

theorem Yields.bind {P : Heap → β → Prop} {x : Eval α} {f : α → Eval β}
    (last : ∀ a, Yields P (f a)) : Yields P (x >>= f) := by
  intro m b m' ends
  cases first : x m with
  | ok a m₁ =>
      rw [bind_of_ok first] at ends
      exact last a _ _ _ ends
  | error e m₁ =>
      rw [bind_of_error first] at ends
      cases ends

private theorem Yields.addObject {P : Heap → Value → Prop} {o : Object}
    (new : ∀ h : Heap, P (h.addObject o).2 (.object h.objects.size)) :
    Yields P (onHeap (·.addObject o)) := by
  intro m v m' ends
  cases ends
  exact new m.heap

private theorem Yields.makeText (text : String) (site : Position) :
    Yields Heap.IsText (makeText text site) := by
  refine Yields.bind fun m => ?_
  split
  · exact .addObject fun h => ⟨_, text, rfl, h.object_added _⟩
  · exact fun _ _ _ ends => nomatch ends

private theorem Yields.makeArray (elements : Array Value) (site : Position) :
    Yields Heap.IsArray (makeArray elements site) := by
  refine Yields.bind fun m => ?_
  split
  · exact .addObject fun h => ⟨_, elements, rfl, h.object_added _⟩
  · exact fun _ _ _ ends => nomatch ends

variable (run : Runner) (this : Option Value) (args : List Value) (site : Position)

private theorem Yields.literal (text : String) (token : Token) :
    Yields Heap.IsText (evaluate run (.literal (.text text) token)) :=
  .makeText text token.position

private theorem Yields.array (bracket : Token) (elements : List Expr) :
    Yields Heap.IsArray (evaluate run (.array bracket elements)) :=
  .bind fun _ => .makeArray _ _

private theorem Yields.textTrim : Yields Heap.IsText (callBuiltin run .textTrim this args site) :=
  .bind fun _ => .makeText _ _

private theorem Yields.arrayJoin : Yields Heap.IsText (callBuiltin run .arrayJoin this args site) :=
  .bind fun _ => .bind fun _ => .bind fun _ => .makeText _ _

private theorem Yields.textSplit :
    Yields Heap.IsArray (callBuiltin run .textSplit this args site) := by
  refine .bind fun found => ?_
  cases args with
  | nil | cons => exact .bind fun _ => .bind fun _ => .makeArray _ _

private theorem Yields.arrayMap : Yields Heap.IsArray (callBuiltin run .arrayMap this args site) :=
  .bind fun _ => .bind fun _ => .bind fun _ => .makeArray _ _

end Eval

namespace Session

variable {programs : List (List Stmt)} {program : List Stmt} {s s₁ : Session} {source : String}

/-- In all states of a session, objects carry what their class asks for. -/
theorem contents_match (history : s.History programs)
    (loads : (s.reading source).load source = (.ok program, s₁)) (fuel : Nat) :
    s.machine.heap.Matches ∧
    (∀ t m, s₁.Reaches fuel program t m → m.heap.Matches ∧
      ∀ fuel', (Eval.machineLeft (Eval.perform fuel' t m)).heap.Matches) ∧
    (Eval.machineLeft (Eval.program (Eval.perform fuel) program (begin s₁.machine))).heap.Matches ∧
    (∀ f, s₁.Raises fuel program f →
      f.cause ≠ .native .withoutReceiver ∧ f.cause ≠ .native .pushOnOther) ∧
    ∀ run text token bracket elements this args site,
      Eval.Yields Heap.IsText (Eval.evaluate run (.literal (.text text) token)) ∧
      Eval.Yields Heap.IsArray (Eval.evaluate run (.array bracket elements)) ∧
      Eval.Yields Heap.IsArray (Eval.callBuiltin run .textSplit this args site) ∧
      Eval.Yields Heap.IsArray (Eval.callBuiltin run .arrayMap this args site) ∧
      Eval.Yields Heap.IsText (Eval.callBuiltin run .arrayJoin this args site) ∧
      Eval.Yields Heap.IsText (Eval.callBuiltin run .textTrim this args site) := by
  have ready := history.ready loads
  refine ⟨history.sound.matches, fun t m reaches => ?_, ?_,
    fun f raises => (ready.raises raises).ne, ?_⟩
  · exact ⟨(ready.reaches reaches).2.heap.matches,
      fun fuel' => (ready.performs reaches fuel').leadsTo.heap.sound.matches⟩
  · exact (ready.ends fuel).leadsTo.heap.sound.matches
  · intro run text token bracket elements this args site
    exact ⟨.literal run text token, .array run bracket elements, .textSplit run this args site,
      .arrayMap run this args site, .arrayJoin run this args site, .textTrim run this args site⟩

/-- A text that gets another content through its own initializer and is pushed onto an array. -/
theorem contents_match_push :
    let s := start .standard true [] .ticking
    let source := "var s = 'a'; s.new('b'); ['x'].push(s.trim());"
    ∃ program s₁ m, s.History [] ∧ (s.reading source).load source = (.ok program, s₁) ∧
      Eval.program (Eval.perform 30) program (begin s₁.machine) = .ok () m ∧
      (m.heap.objects.any fun o => o.content.elementsOrEmpty.size == 2) = true ∧
      m.heap.Matches ∧
      ∀ f, s₁.Raises 30 program f →
        f.cause ≠ .native .withoutReceiver ∧ f.cause ≠ .native .pushOnOther := by
  intro s source
  have check : (((s.reading source).loaded? source).any fun e =>
      match Eval.program (Eval.perform 30) e.1 (begin e.2.machine) with
      | .ok _ m => m.heap.objects.any fun o => o.content.elementsOrEmpty.size == 2
      | .error _ _ => false) = true := by decide +kernel
  obtain ⟨program, s₁, loads, fine⟩ := exists_load check
  have history : s.History [] := .start ..
  obtain ⟨-, -, left, raises, -⟩ := contents_match history loads 30
  dsimp only at fine
  split at fine
  next m ends =>
    rw [ends] at left
    exact ⟨program, s₁, m, history, loads, ends, fine, left, raises⟩
  next => cases fine

end Session

end Treewalk
