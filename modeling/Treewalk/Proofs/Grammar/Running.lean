import Treewalk.Parse.Statement

/-!
# Reasoning about parsers

Whatever a parser does, it consumes tokens from the front, keeps the errors that
are there and takes node numbers in order.  `Runs s p Q` says so about a run of
`p` from the state `s`, and that `Q` holds of its result if it recorded no error.
A parser is taken apart from its first step on; what is known of a result is
handed on as a hypothesis of the next one.
-/

namespace Treewalk.Parse

structure Leads (s s' : ParseState) : Prop where
  rest : s'.rest <:+ s.rest
  finish : s'.finish = s.finish
  errors : s.errors <+: s'.errors
  nextId : s.nextId ≤ s'.nextId

namespace Leads

variable {s s₁ s₂ : ParseState}

theorem refl (s : ParseState) : Leads s s :=
  ⟨List.suffix_refl _, rfl, List.prefix_refl _, Nat.le_refl _⟩

theorem trans (h₁ : Leads s s₁) (h₂ : Leads s₁ s₂) : Leads s s₂ :=
  ⟨h₂.rest.trans h₁.rest, h₂.finish.trans h₁.finish, h₁.errors.trans h₂.errors,
    Nat.le_trans h₁.nextId h₂.nextId⟩

theorem length (h : Leads s s₁) : s₁.rest.length ≤ s.rest.length :=
  h.rest.length_le

theorem consume {t : Token} {rest : List Token} (h : s.rest = t :: rest) :
    Leads s { s with rest := rest } :=
  ⟨h ▸ List.suffix_cons t rest, rfl, List.prefix_refl _, Nat.le_refl _⟩

theorem clean (h₁ : Leads s s₁) (h₂ : Leads s₁ s₂) (h : s₂.errors = s.errors) :
    s₁.errors = s.errors ∧ s₂.errors = s₁.errors := by
  have first : s.errors = s₁.errors := by
    refine h₁.errors.eq_of_length_le ?_
    rw [← h]
    exact h₂.errors.length_le
  exact ⟨first.symm, h.trans first⟩

end Leads

inductive Outcome {α : Type} (s : ParseState) (Q : α → ParseState → Prop) :
    EStateM.Result ParseError ParseState α → Prop where
  | ok {a s'} : Leads s s' → (s'.errors = s.errors → Q a s') → Outcome s Q (.ok a s')
  | error {e s'} : Leads s s' → Outcome s Q (.error e s')

theorem Outcome.shift {α : Type} {s s' : ParseState} {Q : α → ParseState → Prop}
    {outcome : EStateM.Result ParseError ParseState α} (leads : Leads s s')
    (clean : s'.errors = s.errors) (h : Outcome s' Q outcome) : Outcome s Q outcome := by
  cases h with
  | ok leads' holds => exact .ok (leads.trans leads') fun same => holds (same.trans clean.symm)
  | error leads' => exact .error (leads.trans leads')

theorem skipFrom_suffix (last : Token) (rest : List Token) : skipFrom last rest <:+ rest := by
  induction rest generalizing last with
  | nil => exact List.suffix_refl _
  | cons t rest ih =>
      unfold skipFrom
      split
      · exact List.suffix_refl _
      · exact (ih t).trans (List.suffix_cons t rest)

theorem boundary_suffix (rest : List Token) : boundary rest <:+ rest := by
  cases rest with
  | nil => exact List.suffix_refl _
  | cons t rest => exact (skipFrom_suffix t rest).trans (List.suffix_cons t rest)

/-- A run of `p` leads on from `s`, and if it records no error, `Q` holds at its end. -/
def Runs {α : Type} (s : ParseState) (p : Parse α) (Q : α → ParseState → Prop) : Prop :=
  Outcome s Q (p s)

namespace Runs

variable {α β : Type} {s : ParseState} {p : Parse α} {f : α → Parse β}
  {Q : α → ParseState → Prop} {R : β → ParseState → Prop}

theorem pure {a : α} (h : Q a s) : Runs s (Pure.pure a) Q :=
  .ok (.refl s) fun _ => h

theorem refuse (cause : ParseCause) : Runs s (Parse.refuse cause) Q :=
  .error (.refl s)

theorem weaken {Q' : α → ParseState → Prop} (h : Runs s p Q)
    (imp : ∀ {a s'}, Leads s s' → Q a s' → Q' a s') : Runs s p Q' := by
  unfold Runs at h ⊢
  generalize p s = outcome at h ⊢
  cases h with
  | ok leads holds => exact .ok leads fun clean => imp leads (holds clean)
  | error leads => exact .error leads

theorem bind (hp : Runs s p Q)
    (hf : ∀ {a s'}, Leads s s' → Runs s' (f a) fun b s'' => Q a s' → R b s'') :
    Runs s (p >>= f) R := by
  change Outcome s R (EStateM.bind p f s)
  unfold Runs at hp
  unfold EStateM.bind
  generalize p s = outcome at hp ⊢
  cases hp with
  | error leads => exact .error leads
  | @ok a s' leads holds =>
      have next := hf (a := a) leads
      unfold Runs at next
      simp only
      generalize f a s' = outcome' at next ⊢
      cases next with
      | error leads' => exact .error (leads.trans leads')
      | ok leads' holds' =>
          refine .ok (leads.trans leads') fun clean => ?_
          obtain ⟨first, second⟩ := leads.clean leads' clean
          exact holds' second (holds first)

/-! ### Single steps

Each rule runs one step and what follows it. -/

theorem accept {k : Kind → Bool} {f : Option Token → Parse β}
    (yes : ∀ {t rest}, s.rest = t :: rest → k t.kind = true →
      Runs { s with rest := rest } (f (some t)) R)
    (no : Runs s (f none) R) : Runs s (Parse.accept k >>= f) R := by
  change Outcome s R (EStateM.bind (Parse.accept k) f s)
  unfold EStateM.bind Parse.accept
  cases eq : s.rest with
  | nil => exact no
  | cons t rest =>
      cases kind : k t.kind with
      | false => simpa [kind] using show Outcome s R (f none s) from no
      | true => simpa [kind] using Outcome.shift (.consume eq) rfl (yes eq kind)

theorem expect {k : Kind → Bool} {cause : ParseCause} {f : Token → Parse β}
    (yes : ∀ {t rest}, s.rest = t :: rest → k t.kind = true →
      Runs { s with rest := rest } (f t) R) :
    Runs s (Parse.expect k cause >>= f) R := by
  unfold Parse.expect
  rw [bind_assoc]
  refine accept (fun eq kind => ?_) ?_
  · exact yes eq kind
  · exact .error (.refl s)

theorem check {k : Kind → Bool} {f : Bool → Parse β} (both : ∀ b, Runs s (f b) R) :
    Runs s (Parse.check k >>= f) R := by
  change Outcome s R (EStateM.bind (Parse.check k) f s)
  unfold EStateM.bind Parse.check
  cases s.rest with
  | nil => exact both false
  | cons t rest => exact both (k t.kind)

theorem atEnd {f : Bool → Parse β} (h : Runs s (f s.rest.isEmpty) R) :
    Runs s (Parse.atEnd >>= f) R := h

theorem peek {f : Token → Parse β} (h : Runs s (f (ahead s)) R) : Runs s (Parse.peek >>= f) R := h

theorem fresh {f : NodeId → Parse β}
    (h : Runs { s with nextId := s.nextId + 1 } (f s.nextId) R) :
    Runs s (Parse.fresh >>= f) R := by
  have leads : Leads s { s with nextId := s.nextId + 1 } :=
    ⟨List.suffix_refl _, rfl, List.prefix_refl _, Nat.le_succ _⟩
  exact Outcome.shift leads rfl h

theorem complain {cause : ParseCause} {token : Token} {f : Unit → Parse β}
    (h : Runs { s with errors := s.errors ++ [⟨cause, token⟩] } (f ()) fun _ _ => True) :
    Runs s (Parse.complain cause token >>= f) R := by
  have leads : Leads s { s with errors := s.errors ++ [⟨cause, token⟩] } :=
    ⟨List.suffix_refl _, rfl, List.prefix_append _ _, Nat.le_refl _⟩
  change Outcome s R (f () { s with errors := s.errors ++ [⟨cause, token⟩] })
  unfold Runs at h
  generalize f () { s with errors := s.errors ++ [⟨cause, token⟩] } = outcome at h ⊢
  cases h with
  | error leads' => exact .error (leads.trans leads')
  | ok leads' _ =>
      refine .ok (leads.trans leads') fun clean => ?_
      have fewer := (leads.clean leads' clean).1
      simp at fewer

theorem recover (h : Runs s p Q) :
    Runs s (Parse.recover p) fun a s' => ∃ x, a = some x ∧ Q x s' := by
  change Outcome s _ (Parse.recover p s)
  unfold Runs at h
  unfold Parse.recover
  generalize p s = outcome at h ⊢
  cases h with
  | ok leads holds => exact .ok leads fun clean => ⟨_, rfl, holds clean⟩
  | @error e s' leads =>
      refine .ok ⟨(boundary_suffix _).trans leads.rest, leads.finish,
        leads.errors.trans (List.prefix_append _ _), leads.nextId⟩ fun clean => ?_
      have more := leads.errors.length_le
      have same := congrArg List.length clean
      simp at same
      omega

end Runs

end Treewalk.Parse
