import FlatQasm.Proofs.Outcome
import FlatQasm.Source.Tokens

/-!
# Runs that agree up to positions

The positions of tokens only show in errors and beside statements.  Two computations on tokens that
stand at different places agree when they give related values, or errors that differ in nothing but
the positions of related tokens.

The relation between the tokens is a parameter.  When it holds of a token and itself alone,
agreement of a run with itself says that the position of its error is that of one of the tokens.

## Main definitions

* `ImportError.mapPosition` — an error at another position.
* `Placed` — the positions of related tokens.
* `ErrorsAgree`, `Agree` — errors, and computations, that differ in positions only.

## Main statements

* `Agree.bind`, `agree_mapM` — two steps in a row, and one step for each element of a list.
* `ErrorsAgree.exists_token` — an error has the position of a token.
* `Agree.mapError_eq` — where only positions differ, and these are brought together, nothing does.
-/

namespace FlatQasm

namespace ImportError

/-- An error at another position, if it has one. -/
def mapPosition (f : Position → Position) : ImportError → ImportError
  | invalidLexeme p text => invalidLexeme (f p) text
  | unexpectedToken p expected found => unexpectedToken (f p) expected found
  | unexpectedEnd expected => unexpectedEnd expected
  | missingHeader p found => missingHeader (f p) found
  | invalidVersion p found => invalidVersion (f p) found
  | duplicateDeclaration p name => duplicateDeclaration (f p) name
  | invalidRegisterSize p name size => invalidRegisterSize (f p) name size
  | unknownGate p name => unknownGate (f p) name
  | wrongQubitCount p gate expected got => wrongQubitCount (f p) gate expected got
  | wrongParamCount p gate expected got => wrongParamCount (f p) gate expected got
  | broadcastMismatch p fault => broadcastMismatch (f p) fault
  | unresolvedRegister p name => unresolvedRegister (f p) name
  | indexOutOfRange p register index size => indexOutOfRange (f p) register index size
  | divisionByZero p => divisionByZero (f p)
  | nestingTooDeep p => nestingTooDeep (f p)
  | integerTooLarge p digits => integerTooLarge (f p) digits
  | circuit cause => circuit cause

/-- Only what an error does at its own position matters. -/
theorem mapPosition_congr {f g : Position → Position} {e : ImportError}
    (h : ∀ p, e.position? = some p → f p = g p) : e.mapPosition f = e.mapPosition g := by
  cases e <;> simp only [mapPosition]
  all_goals rw [h _ rfl]

/-- The token that was found where another one was expected. -/
def unexpected? : ImportError → Option Token
  | unexpectedToken _ _ found => some found
  | _ => none

@[simp] theorem mapPosition_mapPosition (f g : Position → Position) (e : ImportError) :
    (e.mapPosition g).mapPosition f = e.mapPosition (f ∘ g) := by
  cases e <;> rfl

@[simp] theorem mapPosition_id (e : ImportError) : e.mapPosition id = e := by
  cases e <;> rfl

end ImportError

variable {r : Located → Located → Prop} {α β γ δ : Type}

/-- The positions of related tokens. -/
def Placed (r : Located → Located → Prop) (p p' : Position) : Prop :=
  ∃ t t', r t t' ∧ t.position = p ∧ t'.position = p'

/-- Errors that differ in the positions of related tokens only.  A token that was not expected is
the one at the position. -/
inductive ErrorsAgree (r : Located → Located → Prop) : ImportError → ImportError → Prop where
  | positionless {e : ImportError} (h : e.position? = none) : ErrorsAgree r e e
  | found {t t' : Located} {expected : String} (ht : r t t') :
      ErrorsAgree r (.unexpectedToken t.position expected t.token)
        (.unexpectedToken t'.position expected t.token)
  | placed {e : ImportError} {p p' : Position} (hplace : Placed r p p') (hp : e.position? = some p)
      (hexpected : e.unexpected? = none) :
      ErrorsAgree r e (e.mapPosition fun _ => p')

/-- Computations that give related values, or errors that differ in positions only. -/
inductive Agree (r : Located → Located → Prop) (R : α → β → Prop) :
    Except ImportError α → Except ImportError β → Prop where
  | ok {a : α} {b : β} (h : R a b) : Agree r R (.ok a) (.ok b)
  | error {e e' : ImportError} (h : ErrorsAgree r e e') : Agree r R (.error e) (.error e')

namespace ErrorsAgree

variable {e e' : ImportError}

/-- **An error has the position of a token**, and it is the token that was found if there is one. -/
theorem exists_token (h : ErrorsAgree r e e') {p : Position} (hp : e.position? = some p) :
    ∃ t t', r t t' ∧ t.position = p ∧ ∀ found, e.unexpected? = some found → found = t.token := by
  cases h with
  | positionless h => cases h.symm.trans hp
  | @found t t' expected ht =>
    cases hp
    exact ⟨t, t', ht, rfl, fun found hfound => (Option.some.inj hfound).symm⟩
  | placed hplace hp' hexpected =>
    cases hp'.symm.trans hp
    obtain ⟨t, t', ht, hposition, -⟩ := hplace
    refine ⟨t, t', ht, hposition, fun found hfound => ?_⟩
    cases hexpected.symm.trans hfound

/-- The errors are the same when the positions are brought together. -/
theorem mapPosition_eq (h : ErrorsAgree r e e') {f f' : Position → Position}
    (hf : ∀ t t', r t t' → f t.position = f' t'.position) :
    e.mapPosition f = e'.mapPosition f' := by
  cases h with
  | positionless h => exact ImportError.mapPosition_congr fun p hp => nomatch h.symm.trans hp
  | found ht => simp only [ImportError.mapPosition, hf _ _ ht]
  | placed hplace hp =>
    rw [ImportError.mapPosition_mapPosition]
    obtain ⟨t, t', ht, rfl, rfl⟩ := hplace
    refine ImportError.mapPosition_congr fun p hp' => ?_
    cases hp.symm.trans hp'
    exact hf t t' ht

end ErrorsAgree

namespace Agree

variable {R : α → β → Prop} {S : γ → δ → Prop} {x : Except ImportError α} {y : Except ImportError β}

theorem bind (h : Agree r R x y) {f : α → Except ImportError γ} {g : β → Except ImportError δ}
    (hfg : ∀ a b, R a b → Agree r S (f a) (g b)) : Agree r S (x >>= f) (y >>= g) := by
  cases h with
  | ok h => exact hfg _ _ h
  | error h => exact .error h

/-- Where the first steps give the same value. -/
theorem next {x y : Except ImportError α} (h : Agree r Eq x y) {f : α → Except ImportError γ}
    {g : α → Except ImportError δ} (hfg : ∀ a, Agree r S (f a) (g a)) :
    Agree r S (x >>= f) (y >>= g) := by
  refine h.bind fun a b hab => ?_
  subst hab
  exact hfg a

theorem map (h : Agree r R x y) {f : α → γ} {g : β → δ} (hfg : ∀ a b, R a b → S (f a) (g b)) :
    Agree r S (x.map f) (y.map g) := by
  cases h with
  | ok h => exact .ok (hfg _ _ h)
  | error h => exact .error h

theorem exists_ok (h : Agree r R x y) {a : α} (ha : x = .ok a) : ∃ b, y = .ok b ∧ R a b := by
  subst ha
  cases h with
  | ok h => exact ⟨_, rfl, h⟩

theorem exists_error (h : Agree r R x y) {e : ImportError} (he : x = .error e) :
    ∃ e', y = .error e' ∧ ErrorsAgree r e e' := by
  subst he
  cases h with
  | error h => exact ⟨_, rfl, h⟩

/-- **Where only positions differ, and these are brought together, nothing does.** -/
theorem mapError_eq {x y : Except ImportError α} (h : Agree r Eq x y) {f f' : Position → Position}
    (hf : ∀ t t', r t t' → f t.position = f' t'.position) :
    x.mapError (·.mapPosition f) = y.mapError (·.mapPosition f') := by
  cases h with
  | ok h => rw [h]; rfl
  | error h => exact congrArg Except.error (h.mapPosition_eq hf)

/-- The second computation gives the errors of the first one at other positions. -/
theorem eq_mapError {x y : Except ImportError α} (h : Agree r Eq x y) {f : Position → Position}
    (hf : ∀ t t', r t t' → t'.position = f t.position) : y = x.mapError (·.mapPosition f) := by
  have hsame : x.mapError (·.mapPosition f) = y.mapError (·.mapPosition id) :=
    h.mapError_eq fun t t' ht => (hf t t' ht).symm
  rw [hsame]
  cases y with
  | ok b => rfl
  | error e => exact congrArg Except.error (ImportError.mapPosition_id e).symm

/-- An error without a position is the same in both. -/
theorem refl_circuit (x : Except CircuitError α) :
    Agree r Eq (x.mapError ImportError.circuit) (x.mapError ImportError.circuit) := by
  cases x with
  | ok a => exact .ok rfl
  | error e => exact .error (.positionless rfl)

end Agree

/-- A step for each element of a list. -/
theorem agree_mapM {f g : α → Except ImportError β} (list : List α)
    (h : ∀ a, Agree r Eq (f a) (g a)) : Agree r Eq (list.mapM f) (list.mapM g) := by
  induction list with
  | nil => exact .ok rfl
  | cons a rest ih =>
    rw [List.mapM_cons, List.mapM_cons]
    exact (h a).next fun b => ih.next fun bs => .ok rfl

end FlatQasm
