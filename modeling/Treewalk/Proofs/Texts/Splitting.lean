import Treewalk.Proofs.Arrays.Callbacks
import Treewalk.Proofs.Arrays.Rendering
import Treewalk.Proofs.Running.Compounds
import Treewalk.Proofs.Texts.Cutting

/-!
# Splitting and joining

`split` makes a text object for each piece and an array that holds them; `join` makes one text of
them again.  Neither changes anything but for the new objects, so the texts that are there stay.
-/

namespace Treewalk

/-! ### Objects on the heap -/

def Heap.textObject (text : String) : Object := ⟨stringClass, [], .text text⟩

def Heap.addTexts (h : Heap) (texts : List String) : Heap :=
  { h with objects := h.objects ++ (texts.map textObject).toArray }

def Heap.places (h : Heap) (count : Nat) : List Value :=
  (List.range' h.objects.size count).map .object

def Heap.addPieces (h : Heap) (texts : List String) : Heap :=
  ((h.addTexts texts).addObject ⟨arrayClass, [], .array (h.places texts.length).toArray⟩).2

/-- Nothing has changed but for new callables and objects. -/
def Machine.Grown (m m' : Machine) : Prop :=
  ∃ callables objects, m' = { m with heap := { m.heap with
    callables := m.heap.callables ++ callables, objects := m.heap.objects ++ objects } }

def Machine.binding (m : Machine) (place : Nat) (b : Builtin) : Machine :=
  { m with heap := (m.heap.addCallable (.native b (some (.object place)))).2 }

namespace Heap

variable {h : Heap} {place : Nat} {v : Value} {t : String}

theorem object_of_text? (text : h.text? (.object place) = some t) :
    ∃ o, h.objects[place]? = some o ∧ o.content = .text t := by
  simp only [text?, object?] at text
  cases found : h.objects[place]? with
  | none => simp [found] at text
  | some o =>
      obtain ⟨cls, fields, content⟩ := o
      rw [found] at text
      cases content with
      | none | array => cases text
      | text s =>
          obtain rfl := Option.some.inj text
          exact ⟨_, rfl, rfl⟩

theorem place_of_text? (text : h.text? v = some t) : ∃ place, v = .object place := by
  cases v with
  | object place => exact ⟨place, rfl⟩
  | null | bool | number | callable => cases text

theorem text?_of_object {o : Object} (found : h.objects[place]? = some o)
    (content : o.content = .text t) : h.text? (.object place) = some t := by
  obtain ⟨cls, fields, content⟩ := o
  subst content
  simp [text?, object?, found]

private theorem places_succ (h : Heap) (text : String) (count : Nat) :
    h.places (count + 1) =
      .object h.objects.size :: (h.addObject (textObject text)).2.places count := by
  simp [places, addObject, List.range'_succ]

private theorem addTexts_cons (h : Heap) (text : String) (texts : List String) :
    h.addTexts (text :: texts) = (h.addObject (textObject text)).2.addTexts texts := by
  simp [addTexts, addObject]

end Heap

namespace Machine.Grown

variable {m m' m'' : Machine} {place : Nat} {o : Object} {v : Value} {t : String}

theorem refl (m : Machine) : m.Grown m := ⟨#[], #[], by simp⟩

theorem trans (first : m.Grown m') (second : m'.Grown m'') : m.Grown m'' := by
  obtain ⟨callables, objects, rfl⟩ := first
  obtain ⟨callables', objects', rfl⟩ := second
  exact ⟨callables ++ callables', objects ++ objects', by simp⟩

theorem addObject (m : Machine) (o : Object) :
    m.Grown { m with heap := (m.heap.addObject o).2 } :=
  ⟨#[], #[o], by simp [Heap.addObject]⟩

theorem binding (m : Machine) (place : Nat) (b : Builtin) : m.Grown (m.binding place b) :=
  ⟨#[_], #[], by simp [Machine.binding, Heap.addCallable]; rfl⟩

private theorem addTexts (m : Machine) (texts : List String) :
    m.Grown { m with heap := m.heap.addTexts texts } :=
  ⟨#[], _, by simp [Heap.addTexts]; rfl⟩

theorem addPieces (m : Machine) (texts : List String) :
    m.Grown { m with heap := m.heap.addPieces texts } :=
  (addTexts m texts).trans (addObject { m with heap := m.heap.addTexts texts } _)

theorem object (grown : m.Grown m') (found : m.heap.objects[place]? = some o) :
    m'.heap.objects[place]? = some o := by
  obtain ⟨callables, objects, rfl⟩ := grown
  have bound := (Array.getElem?_eq_some_iff.1 found).1
  simpa [Array.getElem?_append_left bound] using found

private theorem callable {c : Callable} (grown : m.Grown m') (found : m.heap.callable? v = some c) :
    m'.heap.callable? v = some c := by
  obtain ⟨callables, objects, rfl⟩ := grown
  cases v with
  | callable place =>
      change m.heap.callables[place]? = some c at found
      change (m.heap.callables ++ callables)[place]? = some c
      have bound := (Array.getElem?_eq_some_iff.1 found).1
      rwa [Array.getElem?_append_left bound]
  | null | bool | number | object => cases found

theorem library (grown : m.Grown m') : m'.library = m.library := by
  obtain ⟨callables, objects, rfl⟩ := grown
  rfl

theorem ready (grown : m.Grown m') (untimed : m.deadline = none)
    (room : m.depth < m.config.maxDepth) :
    m'.deadline = none ∧ m'.depth < m'.config.maxDepth := by
  obtain ⟨callables, objects, rfl⟩ := grown
  exact ⟨untimed, room⟩

theorem text (grown : m.Grown m') (text : m.heap.text? v = some t) :
    m'.heap.text? v = some t := by
  obtain ⟨place, rfl⟩ := Heap.place_of_text? text
  obtain ⟨o, found, content⟩ := Heap.object_of_text? text
  exact Heap.text?_of_object (grown.object found) content

end Machine.Grown

namespace Eval

variable {run : Runner} {m m' : Machine} {place fuel : Nat} {v separator : Value}
  {t s : String} {site : Position}

theorem makeText_of_library (library : m.library = true) (text : String) :
    makeText text site m = .ok (.object m.heap.objects.size)
      { m with heap := (m.heap.addObject (Heap.textObject text)).2 } := by
  change (if m.library then _ else _ : Eval Value) m = _
  rw [if_pos library]
  rfl

private theorem mapM_makeText (library : m.library = true) (site : Position) (texts : List String) :
    texts.mapM (makeText · site) m =
      .ok (m.heap.places texts.length) { m with heap := m.heap.addTexts texts } := by
  induction texts generalizing m with
  | nil => simp [Heap.places, Heap.addTexts]; rfl
  | cons text texts ih =>
      rw [List.mapM_cons, bind_of_ok (makeText_of_library library text)]
      rw [bind_of_ok (ih (m := { m with heap := (m.heap.addObject (Heap.textObject text)).2 })
        library)]
      rw [List.length_cons, Heap.places_succ _ text, Heap.addTexts_cons]
      rfl

theorem display_text (text : m.heap.text? v = some t) :
    (perform (fuel + 1)).display v site m = .ok t m := by
  obtain ⟨place, rfl⟩ := Heap.place_of_text? text
  obtain ⟨o, found, content⟩ := Heap.object_of_text? text
  change display (perform fuel) (.object place) site m = _
  rw [display_object found, Option.elim_some, displayObject, content]
  rfl

private theorem receiver_text (text : m.heap.text? (.object place) = some t) (site : Position) :
    ∃ o, receiver (some (.object place)) site m = .ok (place, o) m ∧
      o.content.textOrEmpty = t := by
  obtain ⟨o, found, content⟩ := Heap.object_of_text? text
  refine ⟨o, ?_, by rw [content, Content.textOrEmpty]⟩
  simp only [receiver, get_bind, found]
  rfl

/-! ### The two operations -/

def splitTexts (separator text : String) : List String :=
  (Text.pieces separator.toList text.toList).map String.ofList

private theorem intercalate_splitTexts (s t : String) : s.intercalate (splitTexts s t) = t := by
  refine String.toList_inj.1 ?_
  rw [String.toList_intercalate, splitTexts, List.map_map]
  simpa [Function.comp_def] using Text.intercalate_pieces s.toList t.toList

theorem text?_addText (h : Heap) (text : String) :
    (h.addObject (Heap.textObject text)).2.text? (.object h.objects.size) = some text :=
  Heap.text?_of_object (o := Heap.textObject text) (by simp [Heap.addObject]) rfl

private theorem texts_addTexts (h : Heap) (texts : List String) :
    List.Forall₂ (fun v text => (h.addTexts texts).text? v = some text)
      (h.places texts.length) texts := by
  refine List.forall₂_iff_get.2 ⟨by simp [Heap.places], fun i bound bound' => ?_⟩
  have stands : (h.places texts.length).get ⟨i, bound⟩ = .object (h.objects.size + i) := by
    simp [Heap.places]
  rw [stands]
  refine Heap.text?_of_object (o := Heap.textObject texts[i]) ?_ rfl
  simp [Heap.addTexts, bound']

theorem texts_addPieces (m : Machine) (texts : List String) :
    List.Forall₂ (fun v text => (m.heap.addPieces texts).text? v = some text)
      (m.heap.places texts.length) texts :=
  (texts_addTexts m.heap texts).imp fun _ _ text =>
    (Machine.Grown.addObject { m with heap := m.heap.addTexts texts } _).text text

theorem array_addPieces (h : Heap) (texts : List String) :
    (h.addPieces texts).objects[h.objects.size + texts.length]? =
      some ⟨arrayClass, [], .array (h.places texts.length).toArray⟩ := by
  simp [Heap.addPieces, Heap.addTexts, Heap.addObject]

theorem textSplit_eq (library : m.library = true)
    (text : m.heap.text? (.object place) = some t) (cut : m.heap.text? separator = some s) :
    textSplit (perform (fuel + 1)) (some (.object place)) [separator] site m =
      .ok (.object (m.heap.objects.size + (splitTexts s t).length))
        { m with heap := m.heap.addPieces (splitTexts s t) } := by
  obtain ⟨o, receives, rfl⟩ := receiver_text text site
  have makes := mapM_makeText library site (splitTexts s o.content.textOrEmpty)
  rw [splitTexts, List.mapM_map] at makes
  refine (bind_of_ok receives _).trans ?_
  refine (bind_of_ok (display_text cut) _).trans ?_
  refine (bind_of_ok makes _).trans ?_
  let filled := { m with heap := m.heap.addTexts (splitTexts s o.content.textOrEmpty) }
  have size : filled.heap.objects.size =
      m.heap.objects.size + (splitTexts s o.content.textOrEmpty).length := by
    simp [filled, Heap.addTexts]
  rw [← size]
  exact makeArray_of_library (m := filled) library _

private theorem displayAll_texts {values : List Value} {texts : List String}
    (each : List.Forall₂ (fun v text => m.heap.text? v = some text) values texts) :
    displayAll (perform (fuel + 1)) site values m = .ok texts m := by
  induction each with
  | nil => rfl
  | cons text _ ih =>
      rw [displayAll] at ih ⊢
      rw [List.mapM_cons, bind_of_ok (display_text text), bind_of_ok ih]
      rfl

theorem arrayJoin_eq {items : Array Value} {texts : List String} (library : m.library = true)
    (array : m.heap.elements? (.object place) = some items)
    (each : List.Forall₂ (fun v text => m.heap.text? v = some text) items.toList texts)
    (cut : m.heap.text? separator = some s) :
    arrayJoin (perform (fuel + 1)) (some (.object place)) [separator] site m =
      .ok (.object m.heap.objects.size)
        { m with heap := (m.heap.addObject (Heap.textObject (s.intercalate texts))).2 } := by
  obtain ⟨o, receives, rfl⟩ := receiver_array array site
  have separates : textOr (perform (fuel + 1)) "," [separator] site m = .ok s m := by
    obtain ⟨place, rfl⟩ := Heap.place_of_text? cut
    exact display_text cut
  refine (bind_of_ok receives _).trans ?_
  refine (bind_of_ok separates _).trans ?_
  refine (bind_of_ok (displayAll_texts each) _).trans ?_
  exact makeText_of_library library _

/-! ### Calls of methods in programs -/

/-- A value that is a text, with the built-in `split`. -/
def HasText (m : Machine) (v : Value) (t : String) : Prop :=
  ∃ place o, v = .object place ∧ m.heap.objects[place]? = some o ∧ o.cls = stringClass ∧
    o.content = .text t ∧ o.fields.find? "split" = none

/-- Whenever the expression is evaluated, its value is this text; what is there stays. -/
def Spells (m : Machine) (e : Expr) (t : String) : Prop :=
  ∀ m', m.Grown m' → ∃ fuel v m'', (perform fuel).evaluate e m' = .ok v m'' ∧ m'.Grown m'' ∧
    HasText m'' v t

def methodCall (object : Expr) (name paren : Token) (argument : Expr) : Expr :=
  .call (.get object name) paren [argument]

theorem HasText.text (has : HasText m v t) : m.heap.text? v = some t := by
  obtain ⟨place, o, rfl, found, -, content, -⟩ := has
  exact Heap.text?_of_object found content

private theorem HasText.grown (has : HasText m v t) (grown : m.Grown m') : HasText m' v t := by
  obtain ⟨place, o, isObject, found, traits⟩ := has
  exact ⟨place, o, isObject, grown.object found, traits⟩

private theorem spells_literal (library : m.library = true) (t : String) (token : Token) :
    Spells m (.literal (.text t) token) t := by
  intro m' grown
  refine ⟨1, _, _, makeText_of_library (grown.library.trans library) t, .addObject _ _, ?_⟩
  exact ⟨_, Heap.textObject t, rfl, by simp [Heap.addObject], rfl, rfl, rfl⟩

private theorem spells_ref {id : NodeId} {name : Token} (reads : readName id name m = .ok v m)
    (has : HasText m v t) : Spells m (.ref id name) t := by
  intro m' grown
  refine ⟨1, v, m', ?_, .refl m', has.grown grown⟩
  obtain ⟨callables, objects, rfl⟩ := grown
  change readName id name _ = _
  rw [readName_eq] at reads ⊢
  revert reads
  cases m.heap.scopes.found? m.table m.scope id name.lexeme with
  | none => nofun
  | some found =>
      intro reads
      injection reads with value
      exact congrArg (EStateM.Result.ok · _) value

/-- A built-in operation is called from a program: the object is evaluated, the argument after it,
and then the operation runs as one more call. -/
theorem evaluate_methodCall {m₁ m₂ : Machine} {e e' : Expr} {name : Token} {b : Builtin}
    {w : Value} {fuel' : Nat} {heap : Heap} (paren : Token)
    (object : (perform fuel).evaluate e m = .ok (.object place) m₁)
    (offers : Offers m₁ place name.lexeme b)
    (argument : (perform fuel').evaluate e' (m₁.binding place b) = .ok w m₂)
    (grown : (m₁.binding place b).Grown m₂)
    (untimed : m₂.deadline = none) (room : m₂.depth < m₂.config.maxDepth)
    (ends : ∀ fuel, call (perform (fuel + 1)) (.native b (some (.object place))) [w]
      paren.position { m₂ with depth := m₂.depth + 1 } =
        .ok v { m₂ with depth := m₂.depth + 1, heap }) :
    ∃ fuel, (perform fuel).evaluate (methodCall e name paren e') m = .ok v { m₂ with heap } := by
  let inner := max fuel fuel' + 1
  have callee : (perform (inner + 1)).evaluate (.get e name) m = .ok _ (m₁.binding place b) :=
    (bind_of_ok (evaluate_ok_of_le (by omega) object) _).trans (offers name.position)
  have arguments : [e'].mapM (perform (inner + 1)).evaluate (m₁.binding place b) = .ok [w] m₂ := by
    rw [List.mapM_cons, bind_of_ok (evaluate_ok_of_le (by omega) argument)]
    rfl
  have bound : m₂.heap.callable? (.callable m₁.heap.callables.size) = _ :=
    grown.callable (by simp [Machine.binding, Heap.callable?, Heap.addCallable]; rfl)
  have invokes : (perform (inner + 1)).invoke (.native b (some (.object place))) [w]
      paren.position m₂ = .ok v { m₂ with heap } := by
    change invoke (perform inner) _ _ _ m₂ = _
    rw [invoke, bind_of_ok (checkTime_untimed untimed), get_bind, if_neg (by omega), asCall, ends]
    rfl
  refine ⟨inner + 2, ?_⟩
  refine (bind_of_ok callee _).trans ?_
  refine (bind_of_ok arguments _).trans ?_
  rw [callValue, get_bind, bound]
  exact invokes

private theorem evaluate_split {e e' : Expr} {name : Token} (library : m.library = true)
    (untimed : m.deadline = none) (room : m.depth < m.config.maxDepth)
    (object : Spells m e t) (argument : Spells m e' s) (named : name.lexeme = "split")
    (paren : Token) :
    ∃ fuel place m' items,
      (perform fuel).evaluate (methodCall e name paren e') m = .ok (.object place) m' ∧
      m.Grown m' ∧ m'.heap.objects[place]? = some ⟨arrayClass, [], .array items⟩ ∧
      List.Forall₂ (fun v text => m'.heap.text? v = some text) items.toList (splitTexts s t) := by
  obtain ⟨fuel, v, m₁, first, grown₁, has⟩ := object m (.refl m)
  have text := has.text
  obtain ⟨place, o, rfl, found, cls, -, own⟩ := has
  have offers : Offers m₁ place name.lexeme .textSplit := by
    rw [named]
    exact offers_builtin found own (by rw [cls]; rfl)
  have grown₂ := grown₁.trans (.binding m₁ place .textSplit)
  obtain ⟨fuel', w, m₂, second, grown₃, has'⟩ := argument _ grown₂
  have grown := grown₂.trans grown₃
  have text' := ((Machine.Grown.binding m₁ place .textSplit).trans grown₃).text text
  obtain ⟨untimed', room'⟩ := grown.ready untimed room
  obtain ⟨fuel, ends⟩ := evaluate_methodCall paren first offers second grown₃ untimed'
    room' fun _ => textSplit_eq (m := { m₂ with depth := m₂.depth + 1 })
      (grown.library.trans library) text' has'.text
  exact ⟨fuel, _, _, _, ends, grown.trans (.addPieces m₂ _), array_addPieces m₂.heap _,
    texts_addPieces m₂ _⟩

private theorem evaluate_join {m₁ : Machine} {items : Array Value} {texts : List String}
    {e e' : Expr} {name : Token} (library : m.library = true)
    (untimed : m.deadline = none) (room : m.depth < m.config.maxDepth) (grown₁ : m.Grown m₁)
    (object : (perform fuel).evaluate e m = .ok (.object place) m₁)
    (found : m₁.heap.objects[place]? = some ⟨arrayClass, [], .array items⟩)
    (each : List.Forall₂ (fun v text => m₁.heap.text? v = some text) items.toList texts)
    (argument : Spells m e' s) (named : name.lexeme = "join") (paren : Token) :
    ∃ fuel joined m', (perform fuel).evaluate (methodCall e name paren e') m = .ok joined m' ∧
      m.Grown m' ∧ m'.heap.text? joined = some (s.intercalate texts) := by
  have offers : Offers m₁ place name.lexeme .arrayJoin := by
    rw [named]
    exact offers_builtin found rfl rfl
  have grown₂ := grown₁.trans (.binding m₁ place .arrayJoin)
  obtain ⟨fuel', w, m₂, second, grown₃, has⟩ := argument _ grown₂
  have grown := grown₂.trans grown₃
  have since := (Machine.Grown.binding m₁ place .arrayJoin).trans grown₃
  have array : m₂.heap.elements? (.object place) = some items := by
    simp [Heap.elements?, Heap.object?, since.object found]
  obtain ⟨untimed', room'⟩ := grown.ready untimed room
  obtain ⟨fuel, ends⟩ := evaluate_methodCall paren object offers second grown₃ untimed'
    room' fun _ => arrayJoin_eq (m := { m₂ with depth := m₂.depth + 1 })
      (grown.library.trans library) array (each.imp fun _ _ text => since.text text) has.text
  exact ⟨fuel, _, _, ends, grown.trans (.addObject m₂ _), text?_addText m₂.heap _⟩

/-! ### Joining what has been split -/

/-- `join` undoes `split`, whatever the text and the separator are.  The pieces are new text objects
in a new array: if the separator is not empty, the pieces between its leftmost occurrences, none of
which holds it, and otherwise the single characters.  A program that writes `t.split(s).join(s)`
gets this text. -/
theorem join_undoes_split (library : m.library = true)
    (text : m.heap.text? (.object place) = some t) (cut : m.heap.text? separator = some s)
    (fuel : Nat) (site site' : Position) :
    let run := perform (fuel + 1)
    (∃ pieces items array joined m₁ m₂,
      call run (.native .textSplit (some (.object place))) [separator] site m = .ok array m₁ ∧
      m₁.heap.elements? array = some items ∧
      List.Forall₂ (fun v piece => m₁.heap.text? v = some piece) items.toList pieces ∧
      call run (.native .arrayJoin (some array)) [separator] site' m₁ = .ok joined m₂ ∧
      m₂.heap.text? joined = some t ∧ m₂.heap.equal joined (.object place) = true ∧
      (s ≠ "" →
        Text.CutLeftmost s.toList t.toList (pieces.map String.toList) ∧
        ∀ piece ∈ pieces, ¬s.toList <:+: piece.toList) ∧
      (s = "" → pieces = t.toList.map String.singleton)) ∧
    ∀ (e e' : Expr) (split join paren paren' : Token), split.lexeme = "split" →
      join.lexeme = "join" → Spells m e t → Spells m e' s → m.deadline = none →
      m.depth < m.config.maxDepth →
      ∃ fuel joined m', (perform fuel).evaluate
          (methodCall (methodCall e split paren e') join paren' e') m = .ok joined m' ∧
        m.Grown m' ∧ m'.heap.text? joined = some t := by
  intro run
  refine ⟨?_, ?_⟩
  · let texts := splitTexts s t
    let m₁ := { m with heap := m.heap.addPieces texts }
    have grown : m.Grown m₁ := .addPieces m texts
    have array : m₁.heap.elements? (.object (m.heap.objects.size + texts.length)) =
        some (m.heap.places texts.length).toArray := by
      simp [m₁, Heap.elements?, Heap.object?, array_addPieces]
    have joins : arrayJoin run (some _) [separator] site' m₁ = _ :=
      arrayJoin_eq library array (texts_addPieces m texts) (grown.text cut)
    rw [intercalate_splitTexts] at joins
    have joined := text?_addText m₁.heap t
    have still : (m₁.heap.addObject (Heap.textObject t)).2.text? (.object place) = some t :=
      (grown.trans (.addObject m₁ _)).text text
    have characters : texts.map String.toList = Text.pieces s.toList t.toList := by
      simp [texts, splitTexts, Function.comp_def]
    refine ⟨texts, _, _, _, m₁, _, textSplit_eq library text cut, array,
      texts_addPieces m texts, joins, joined, ?_, ?_, ?_⟩
    · simp [Heap.equal, joined, still]
    · intro some
      have nonempty : s.toList ≠ [] := by simpa using some
      have leftmost := Text.pieces_leftmost nonempty t.toList
      rw [← characters] at leftmost
      exact ⟨leftmost, fun piece mem =>
        leftmost.not_infix_of_mem nonempty (List.mem_map_of_mem mem)⟩
    · rintro rfl
      simp [texts, splitTexts, Text.pieces]
  · intro e e' split join paren paren' splits joins object argument untimed room
    obtain ⟨fuel, place, m₁, items, first, grown, found, each⟩ :=
      evaluate_split library untimed room object argument splits paren
    have ends := evaluate_join library untimed room grown first found each argument joins paren'
    rwa [intercalate_splitTexts] at ends

/-- A text of which every occurrence of the separator touches an end or overlaps another one. -/
theorem join_undoes_split_overlapping :
    let t := "éé|ééé"
    let s := "éé"
    let objects := #[Heap.textObject t, Heap.textObject s]
    let m := { (Session.start .standard true [] .ticking).machine with
      heap := { Heap.start with objects }.defineGlobal "s" (.object 1), table := ⟨#[some 0]⟩ }
    let token := fun lexeme => (⟨.identifier, lexeme, ⟨1, 1⟩⟩ : Token)
    let text := Expr.literal (.text t) (token t)
    let name := Expr.ref 0 (token "s")
    (m.library = true ∧ m.heap.text? (.object 0) = some t ∧ m.heap.text? (.object 1) = some s ∧
      m.deadline = none ∧ m.depth < m.config.maxDepth) ∧
    (∃ array joined m₁ m₂,
      call (perform 1) (.native .textSplit (some (.object 0))) [.object 1] ⟨1, 1⟩ m =
        .ok array m₁ ∧
      call (perform 1) (.native .arrayJoin (some array)) [.object 1] ⟨1, 1⟩ m₁ = .ok joined m₂ ∧
      m₂.heap.text? joined = some t) ∧
    ∃ fuel joined m', (perform fuel).evaluate
        (methodCall (methodCall text (token "split") (token "(") name) (token "join") (token "(")
          name) m = .ok joined m' ∧
      m'.heap.text? joined = some t := by
  intro t s objects m token text name
  have library : m.library = true := rfl
  have written : m.heap.text? (.object 0) = some t := rfl
  have cut : m.heap.text? (.object 1) = some s := rfl
  have fine : m.deadline = none ∧ m.depth < m.config.maxDepth := ⟨rfl, by decide⟩
  have spells : Spells m name s :=
    spells_ref (v := .object 1) rfl ⟨1, Heap.textObject s, rfl, rfl, rfl, rfl, rfl⟩
  obtain ⟨⟨_, _, array, joined, m₁, m₂, splits, -, -, joins, same, -⟩, evaluates⟩ :=
    join_undoes_split library written cut 0 ⟨1, 1⟩ ⟨1, 1⟩
  refine ⟨⟨library, rfl, rfl, fine⟩, ⟨array, joined, m₁, m₂, splits, joins, same⟩, ?_⟩
  obtain ⟨fuel, joined, m', ends, -, whole⟩ :=
    evaluates text name (token "split") (token "join") (token "(") (token "(") rfl rfl
      (spells_literal library t _) spells fine.1 fine.2
  exact ⟨fuel, joined, m', ends, whole⟩

end Eval

end Treewalk
