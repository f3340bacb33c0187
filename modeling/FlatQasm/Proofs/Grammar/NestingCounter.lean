import FlatQasm.Proofs.Grammar.Angles
import FlatQasm.Proofs.Grammar.Reading

/-!
# One counter for the levels that are open

The parser of angles hands the number of open levels down its calls, so that nothing has to be
taken back.  Here the levels are kept in one counter instead, as a part of the state: a level is
counted up before its tokens are read and down behind them, also when they could not be read.  The
counter is an integer and every value that it is given is kept, so that a level that is closed
twice, or left open behind an error, would be seen.

Nothing of the kind happens.  A reading with the counter gives what the functions give, and in the
end the counter is back; on the way it stays between the value that it had and the limit.

## Main definitions

* `Reader`, `Counting` — the state with its counter, and the computations on it.
* `Counting.nested`, `Counting.binary`, `Counting.unary`, `Counting.primary` — the parts of an
  angle.
* `Balanced` — the counter is back, and was within its bounds.
* `Follows` — a computation does what a function on tokens says, and keeps the counter.

## Main statements

* `Follows.deeper` — a level that is opened is closed.
* `follows_read` — each part follows its function.
* `Part.read_exact` — the counter, the height and the tokens behind each part.
-/

namespace FlatQasm.Grammar

/-! ## Reading with a counter -/

/-- The state of a parser: the tokens that are left, the position of the last one that was taken,
the number of open levels, and the values that this number was given, from the latest on. -/
structure Reader where
  tokens : List Located
  last : Position
  nesting : ℤ
  history : List ℤ

/-- The state with the number of open levels changed. -/
def Reader.count (r : Reader) (nesting : ℤ) : Reader :=
  { r with nesting := nesting, history := nesting :: r.history }

/-- A computation that changes the state of a parser and may fail.  The state is there behind a
failure too. -/
abbrev Counting := ExceptT ImportError (StateM Reader)

namespace Counting

variable {α : Type}

/-- Takes a token. -/
def advance : Counting Unit :=
  modify fun r =>
    match r.tokens with
    | [] => r
    | t :: rest => { r with tokens := rest, last := t.position }

/-- Takes the given punctuation. -/
def expect (sign : Punct) : Counting Unit := do
  let r ← get
  if nextIs sign r.tokens then advance
  else throw (unexpected ("'" ++ sign.text ++ "'") r.tokens)

/-- Opens a level. -/
def enter : Counting Unit := do
  let r ← get
  if nestingLimit ≤ r.nesting then throw (.nestingTooDeep (nextPosition r.last r.tokens))
  else set (r.count (r.nesting + 1))

/-- Closes a level. -/
def leave : Counting Unit := modify fun r => r.count (r.nesting - 1)

/-- A computation one level deeper.  The level is closed before anyone looks at the outcome. -/
def deeper (x : Counting α) : Counting α := do
  enter
  let outcome ← observing x
  leave
  ofExcept outcome

mutual

/-- A whole angle one level deeper. -/
def nested (bound : List Located) : Counting Subtree :=
  deeper (binary bound 0)
termination_by (bound.length, 1)

/-- An operand, and the operators behind it that have at least the precedence `minimum`. -/
def binary (bound : List Located) (minimum : ℕ) : Counting Subtree := do
  match bound with
  | [] => throw (unexpected "expression" (← get).tokens)
  | _ :: bound =>
    let left ← unary bound
    operators bound minimum left
termination_by (bound.length, 0)

/-- The operators behind a tree that have at least the precedence `minimum`. -/
def operators (bound : List Located) (minimum : ℕ) (left : Subtree) : Counting Subtree := do
  match bound with
  | [] => pure left
  | _ :: bound =>
    match (← get).tokens with
    | ⟨.punct sign, p⟩ :: _ =>
      match operation? sign with
      | some op =>
        if precedence op < minimum then pure left
        else
          advance
          let right ← binary bound (precedence op + 1)
          let e ← ofExcept (join op p left right)
          operators bound minimum e
      | none => pure left
    | _ => pure left
termination_by (bound.length, 0)

/-- A primary, or a minus sign and the unary angle behind it, one level deeper. -/
def unary (bound : List Located) : Counting Subtree := do
  match (← get).tokens with
  | ⟨.punct .minus, p⟩ :: _ =>
    let operand ← deeper do
      advance
      match bound with
      | [] => throw (unexpected "expression" (← get).tokens)
      | _ :: bound => unary bound
    ofExcept (negate p operand)
  | _ => primary bound
termination_by (bound.length, 3)

/-- A number, `pi`, a variable, or an angle in parentheses. -/
def primary (bound : List Located) : Counting Subtree := do
  match (← get).tokens with
  | ⟨.int literal, _⟩ :: _ =>
    advance
    pure ⟨.const literal.toFloat, 1⟩
  | ⟨.float value, _⟩ :: _ =>
    advance
    pure ⟨.const value, 1⟩
  | ⟨.keyword .pi, _⟩ :: _ =>
    advance
    pure ⟨.pi, 1⟩
  | ⟨.ident name, _⟩ :: _ =>
    advance
    pure ⟨.var name, 1⟩
  | ⟨.punct .leftParen, _⟩ :: _ =>
    advance
    let inner ← nested bound
    expect .rightParen
    pure inner
  | ts => throw (unexpected "expression" ts)
termination_by (bound.length, 2)

end

/-! ## What the computations do to a state -/

variable {β : Type} (r : Reader)

theorem bind_apply (x : Counting α) (f : α → Counting β) :
    (x >>= f) r = ExceptT.bindCont f (x r).1 (x r).2 := rfl

theorem observing_apply (x : Counting α) : observing x r = (.ok (x r).1, (x r).2) := by
  rcases h : x r with ⟨a | a, r'⟩ <;>
    simp [observing, tryCatch, tryCatchThe, MonadExceptOf.tryCatch, ExceptT.tryCatch, ExceptT.mk,
      bind, ExceptT.bind, StateT.bind, ExceptT.bindCont, h, pure, ExceptT.pure, StateT.pure]

theorem get_bind (f : Reader → Counting α) : (get >>= f) r = f r r := rfl

@[simp] theorem ofExcept_apply (outcome : Except ImportError α) :
    (ofExcept outcome : Counting α) r = (outcome, r) := by
  cases outcome <;> rfl

variable {r}

theorem advance_apply {t : Located} {rest : List Located} (h : r.tokens = t :: rest) :
    advance r = (.ok (), { r with tokens := rest, last := t.position }) := by
  change (Except.ok (), match r.tokens with
    | [] => r
    | t :: rest => { r with tokens := rest, last := t.position }) = _
  rw [h]

theorem expect_apply (sign : Punct) : expect sign r = if nextIs sign r.tokens then advance r
    else (.error (unexpected ("'" ++ sign.text ++ "'") r.tokens), r) := by
  change (if nextIs sign r.tokens then advance else throw _ : Counting Unit) r = _
  split <;> rfl

/-- A level that may not be opened. -/
theorem deeper_of_le (x : Counting α) (h : nestingLimit ≤ r.nesting) :
    deeper x r = (.error (.nestingTooDeep (nextPosition r.last r.tokens)), r) := by
  have henter : enter r = (.error (.nestingTooDeep (nextPosition r.last r.tokens)), r) := by
    change (if nestingLimit ≤ r.nesting then throw _ else set _ : Counting Unit) r = _
    rw [if_pos h]
    rfl
  rw [deeper, bind_apply, henter]
  rfl

/-- A level that is opened is closed again, whatever comes out. -/
theorem deeper_of_lt (x : Counting α) (h : r.nesting < nestingLimit) :
    deeper x r = ((x (r.count (r.nesting + 1))).1,
      (x (r.count (r.nesting + 1))).2.count ((x (r.count (r.nesting + 1))).2.nesting - 1)) := by
  have henter : enter r = (.ok (), r.count (r.nesting + 1)) := by
    change (if nestingLimit ≤ r.nesting then throw _ else set _ : Counting Unit) r = _
    rw [if_neg (Int.not_le.2 h)]
    rfl
  rw [deeper, bind_apply, henter]
  change (observing x >>= _) _ = _
  rw [bind_apply, observing_apply]
  exact ofExcept_apply _ _

end Counting

/-! ## The counter is back -/

/-- The counter is back, and on the way it stayed between the value that it had and the limit. -/
structure Balanced (r r' : Reader) : Prop where
  nesting_eq : r'.nesting = r.nesting
  between : ∃ values, r'.history = values ++ r.history ∧
    ∀ k ∈ values, r.nesting ≤ k ∧ k ≤ nestingLimit

namespace Balanced

variable {r r' r'' : Reader}

theorem refl (r : Reader) : Balanced r r := ⟨rfl, [], rfl, by simp⟩

theorem trans (h : Balanced r r') (h' : Balanced r' r'') : Balanced r r'' := by
  obtain ⟨values, hvalues, hbetween⟩ := h.between
  obtain ⟨values', hvalues', hbetween'⟩ := h'.between
  refine ⟨h'.nesting_eq.trans h.nesting_eq, values' ++ values, ?_, ?_⟩
  · rw [hvalues', hvalues, List.append_assoc]
  · rw [h.nesting_eq] at hbetween'
    exact List.forall_mem_append.2 ⟨hbetween', hbetween⟩

/-- A level around: the counter goes up by one, and down again. -/
theorem deeper (hlimit : r.nesting < nestingLimit) (h : Balanced (r.count (r.nesting + 1)) r') :
    Balanced r (r'.count (r'.nesting - 1)) := by
  have hnesting : r'.nesting - 1 = r.nesting := by
    rw [h.nesting_eq]
    exact Int.add_sub_cancel r.nesting 1
  obtain ⟨values, hvalues, hbetween⟩ := h.between
  refine ⟨hnesting, (r'.nesting - 1) :: (values ++ [r.nesting + 1]), ?_, ?_⟩
  · rw [Reader.count, hvalues, List.cons_append, List.append_assoc]
    rfl
  · have hopened : (r.count (r.nesting + 1)).nesting = r.nesting + 1 := rfl
    rw [hopened] at hbetween
    intro k hk
    rw [hnesting, List.mem_cons, List.mem_append, List.mem_singleton] at hk
    rcases hk with rfl | hk | rfl
    · exact ⟨le_rfl, hlimit.le⟩
    · have hk := hbetween k hk
      exact ⟨by omega, hk.2⟩
    · exact ⟨by omega, hlimit⟩

end Balanced

/-! ## Following a function -/

/-- What comes out of a state is what a function on tokens gives, and the counter is kept.  Where it
is a success, at least some number of tokens has been taken. -/
structure Follows {α : Type} (least : ℕ) (r : Reader)
    (result : Except ImportError (α × List Located)) (after : Except ImportError α × Reader) :
    Prop where
  kept : Balanced r after.2
  outcome : after.1 = result.map Prod.fst
  taken : ∀ a rest, result = .ok (a, rest) → after.2.tokens = rest ∧
    ∃ used, least ≤ used.length ∧ r.tokens = used ++ rest

namespace Follows

variable {α β : Type} {m n : ℕ} {x : Counting α} {f : α → Counting β}
  {result : Except ImportError (α × List Located)} {r : Reader}

theorem mono {after : Except ImportError α × Reader} (h : Follows m r result after) (hle : n ≤ m) :
    Follows n r result after where
  kept := h.kept
  outcome := h.outcome
  taken := by
    intro a rest ha
    obtain ⟨htokens, used, hused, hsplit⟩ := h.taken a rest ha
    exact ⟨htokens, used, hle.trans hused, hsplit⟩

theorem pure (a : α) : Follows 0 r (.ok (a, r.tokens)) ((pure a : Counting α) r) where
  kept := .refl r
  outcome := rfl
  taken := by
    rintro _ _ ⟨⟩
    exact ⟨rfl, [], le_rfl, rfl⟩

theorem fail (e : ImportError) : Follows n r (.error e) ((throw e : Counting α) r) where
  kept := .refl r
  outcome := rfl
  taken := fun _ _ h => by cases h

/-- Two computations in a row. -/
theorem bind {g : α × List Located → Except ImportError (β × List Located)}
    (hx : Follows m r result (x r))
    (hf : ∀ a, result = .ok (a, (x r).2.tokens) → (x r).2.nesting = r.nesting →
      Follows n (x r).2 (g (a, (x r).2.tokens)) (f a (x r).2)) :
    Follows (m + n) r (result >>= g) ((x >>= f) r) := by
  cases result with
  | error e =>
    have happly : (x >>= f) r = (.error e, (x r).2) := by
      rw [Counting.bind_apply, hx.outcome]
      rfl
    rw [happly]
    exact ⟨hx.kept, rfl, fun _ _ h => by cases h⟩
  | ok pair =>
    obtain ⟨a, rest⟩ := pair
    obtain ⟨rfl, used, hused, hsplit⟩ := hx.taken a rest rfl
    have happly : (x >>= f) r = f a (x r).2 := by
      rw [Counting.bind_apply, hx.outcome]
      rfl
    rw [happly]
    have hfa := hf a rfl hx.kept.nesting_eq
    refine ⟨hx.kept.trans hfa.kept, hfa.outcome, fun b rest' h => ?_⟩
    obtain ⟨htokens, used', hused', hsplit'⟩ := hfa.taken b rest' h
    refine ⟨htokens, used ++ used', ?_, ?_⟩
    · rw [List.length_append]
      exact Nat.add_le_add hused hused'
    · rw [hsplit, hsplit', List.append_assoc]

/-- A step that does not look at the state. -/
theorem step (step : Except ImportError α) :
    Follows 0 r (step >>= fun a => .ok (a, r.tokens)) ((ofExcept step : Counting α) r) := by
  cases step with
  | error e => exact fail e
  | ok a => exact pure a

theorem step_bind {step : Except ImportError α} {g : α → Except ImportError (β × List Located)}
    (h : ∀ a, Follows n r (g a) (f a r)) :
    Follows n r (step >>= g) ((ofExcept step >>= f) r) := by
  cases step with
  | error e => exact fail e
  | ok a => exact h a

/-- A token that is taken. -/
theorem advance_bind {t : Located} {rest : List Located} {f : Unit → Counting α}
    (htokens : r.tokens = t :: rest)
    (h : Follows n { r with tokens := rest, last := t.position } result
      (f () { r with tokens := rest, last := t.position })) :
    Follows (n + 1) r result ((Counting.advance >>= f) r) := by
  have happly : (Counting.advance >>= f) r =
      f () { r with tokens := rest, last := t.position } := by
    rw [Counting.bind_apply, Counting.advance_apply htokens]
    rfl
  rw [happly]
  refine ⟨⟨h.kept.nesting_eq, h.kept.between⟩, h.outcome, fun a rest' ha => ?_⟩
  obtain ⟨hrest, used, hused, hsplit⟩ := h.taken a rest' ha
  refine ⟨hrest, t :: used, Nat.succ_le_succ hused, ?_⟩
  rw [htokens, List.cons_append]
  exact congrArg _ hsplit

/-- The next token is the one that was expected, or there is an error. -/
theorem expect (sign : Punct) :
    Follows 0 r (Grammar.expect sign r.tokens) (Counting.expect sign r) := by
  rw [Counting.expect_apply, Grammar.expect]
  by_cases hnext : nextIs sign r.tokens
  · rw [if_pos hnext, if_pos hnext]
    cases htokens : r.tokens with
    | nil =>
      rw [htokens] at hnext
      cases hnext
    | cons t rest =>
      rw [Counting.advance_apply htokens]
      refine ⟨⟨rfl, [], rfl, by simp⟩, rfl, ?_⟩
      rintro _ _ ⟨⟩
      exact ⟨rfl, [t], Nat.zero_le _, htokens⟩
  · rw [if_neg hnext, if_neg hnext]
    exact fail _

/-- A level that is opened is closed. -/
theorem deeper (hlimit : r.nesting < nestingLimit)
    (h : Follows n (r.count (r.nesting + 1)) result (x (r.count (r.nesting + 1)))) :
    Follows n r result (Counting.deeper x r) := by
  rw [Counting.deeper_of_lt x hlimit]
  exact ⟨h.kept.deeper hlimit, h.outcome, h.taken⟩

/-- A level that may not be opened. -/
theorem deeper_of_le (hlimit : nestingLimit ≤ r.nesting) :
    Follows n r (.error (.nestingTooDeep (nextPosition r.last r.tokens)))
      (Counting.deeper x r) := by
  rw [Counting.deeper_of_le x hlimit]
  exact ⟨.refl r, rfl, fun _ _ h => by cases h⟩

end Follows

/-! ## The parts of an angle -/

/-- A chain of operators with the counter follows the function on tokens. -/
def FollowsBinary (bound : List Located) : Prop :=
  ∀ (minimum n : ℕ) (r : Reader), r.nesting = n → n ≤ nestingLimit →
    Follows 1 r (climb bound minimum n r.tokens) (Counting.binary bound minimum r)

/-- A unary angle with the counter follows the function on tokens. -/
def FollowsUnary (bound : List Located) : Prop :=
  ∀ (n : ℕ) (r : Reader), r.nesting = n → n ≤ nestingLimit →
    Follows 1 r (unary (climb bound) n r.tokens) (Counting.unary bound r)

/-- The operators behind a tree follow the function on tokens. -/
def FollowsOperators (bound : List Located) : Prop :=
  ∀ (minimum n : ℕ) (left : Subtree) (r : Reader), r.nesting = n → n ≤ nestingLimit →
    Follows 0 r (extend bound minimum n left r.tokens) (Counting.operators bound minimum left r)

section Parts

variable {bound : List Located} {b : Located} {n : ℕ} {r : Reader}

theorem follows_nested (hbinary : FollowsBinary bound) (hr : r.nesting = n)
    (hn : n ≤ nestingLimit) :
    Follows 1 r (nested (climb bound) n r.last r.tokens) (Counting.nested bound r) := by
  rw [Counting.nested, nested]
  split
  · next hlimit => exact .deeper_of_le (by omega)
  · next hlimit =>
    refine .deeper (by omega) (hbinary 0 (n + 1) _ ?_ (by omega))
    rw [Reader.count, hr]
    rfl

theorem follows_primary (hbinary : FollowsBinary bound) (hr : r.nesting = n)
    (hn : n ≤ nestingLimit) :
    Follows 1 r (primary (climb bound) n r.tokens) (Counting.primary bound r) := by
  rw [Counting.primary, Counting.get_bind]
  rcases htokens : r.tokens with _ | ⟨⟨token, p⟩, rest⟩
  · exact .fail _
  · cases token with
    | int literal => exact .advance_bind htokens (.pure _)
    | float value => exact .advance_bind htokens (.pure _)
    | ident name => exact .advance_bind htokens (.pure _)
    | string content => exact .fail _
    | keyword word =>
      cases word with
      | pi => exact .advance_bind htokens (.pure _)
      | _ => exact .fail _
    | punct sign =>
      cases sign with
      | leftParen =>
        have inside := follows_nested (r := ⟨rest, p, r.nesting, r.history⟩) hbinary hr hn
        refine .advance_bind htokens
          ((inside.mono (Nat.zero_le 1)).bind (n := 0) fun inner _ _ => ?_)
        exact (Follows.expect .rightParen).bind (n := 0) fun _ _ _ => .pure inner
      | _ => exact .fail _

/-- A minus sign and what is behind it, which is read at the precedence of operands. -/
theorem follows_minus {operand : Counting Subtree} (hoperand : ∀ (n : ℕ) (r : Reader),
      r.nesting = n → n ≤ nestingLimit →
        Follows 1 r (climb bound operandPrecedence n r.tokens) (operand r))
    (hr : r.nesting = n) (hn : n ≤ nestingLimit) {p : Position} {rest : List Located}
    (htokens : r.tokens = ⟨.punct .minus, p⟩ :: rest) :
    Follows 1 r (unary (climb bound) n (⟨.punct .minus, p⟩ :: rest)) ((do
      let e ← Counting.deeper do
        Counting.advance
        operand
      ofExcept (negate p e) : Counting Subtree) r) := by
  rw [unary]
  split
  · next hlimit =>
    have refused : Follows 1 r _ (Counting.deeper (do Counting.advance; operand) r) :=
      .deeper_of_le (by omega)
    rw [htokens] at refused
    exact refused.bind (n := 0) (g := fun _ => .error (.nestingTooDeep p)) fun _ h _ => by cases h
  · next hlimit =>
    have inside := hoperand (n + 1) ⟨rest, p, r.nesting + 1, (r.nesting + 1) :: r.history⟩
      (by rw [hr]; rfl) (by omega)
    have opened : Follows 2 r _ (Counting.deeper (do Counting.advance; operand) r) :=
      .deeper (by omega) (.advance_bind htokens inside)
    exact (opened.bind (n := 0) fun e _ _ => .step (negate p e)).mono (by omega)

/-- Without a minus sign there is only a primary. -/
theorem follows_unary_of_ne (hbinary : FollowsBinary bound) (hr : r.nesting = n)
    (hn : n ≤ nestingLimit) (hminus : ∀ p rest, r.tokens ≠ ⟨.punct .minus, p⟩ :: rest) :
    Follows 1 r (unary (climb bound) n r.tokens) (Counting.primary bound r) := by
  have hprimary := follows_primary hbinary hr hn
  generalize r.tokens = ts at hminus hprimary ⊢
  unfold unary
  split
  · exact (hminus _ _ rfl).elim
  · exact hprimary

theorem followsUnary_nil (hbinary : FollowsBinary []) : FollowsUnary [] := by
  intro n r hr hn
  rw [Counting.unary, Counting.get_bind]
  have hminus := @follows_minus [] n r (do throw (unexpected "expression" (← get).tokens))
    (fun _ _ _ _ => .fail _) hr hn
  have hother := follows_unary_of_ne hbinary hr hn
  generalize r.tokens = ts at hminus hother ⊢
  split
  · exact hminus rfl
  · next hne => exact hother fun p rest h => hne p rest h

/-- An operand is all that is read at the precedence of operands. -/
theorem climb_operandPrecedence (ts : List Located) :
    climb (b :: bound) operandPrecedence n ts = unary (climb bound) n ts := by
  rw [climb]
  cases unary (climb bound) n ts with
  | error e => rfl
  | ok pair => exact extend_of_stops (stops_operandPrecedence _) pair.1

theorem followsUnary_cons (hbinary : FollowsBinary (b :: bound)) (hunary : FollowsUnary bound) :
    FollowsUnary (b :: bound) := by
  intro n r hr hn
  rw [Counting.unary, Counting.get_bind]
  have hoperand (n : ℕ) (r : Reader) (hr : r.nesting = n) (hn : n ≤ nestingLimit) :
      Follows 1 r (climb (b :: bound) operandPrecedence n r.tokens) (Counting.unary bound r) := by
    rw [climb_operandPrecedence]
    exact hunary n r hr hn
  have hminus := @follows_minus (b :: bound) n r (Counting.unary bound) hoperand hr hn
  have hother := follows_unary_of_ne hbinary hr hn
  generalize r.tokens = ts at hminus hother ⊢
  split
  · exact hminus rfl
  · next hne => exact hother fun p rest h => hne p rest h

theorem followsBinary_cons (hunary : FollowsUnary bound) (hoperators : FollowsOperators bound) :
    FollowsBinary (b :: bound) := by
  intro minimum n r hr hn
  rw [Counting.binary, climb]
  refine (hunary n r hr hn).bind (n := 0) fun left _ hleft => ?_
  exact hoperators minimum n left _ (hleft.trans hr) hn

/-- The tree so far is the whole one, or an operator and its right operand are taken. -/
theorem followsOperators_cons (hbinary : FollowsBinary bound)
    (hoperators : FollowsOperators bound) : FollowsOperators (b :: bound) := by
  intro minimum n left r hr hn
  have hdone := Follows.pure (r := r) left
  rw [Counting.operators, Counting.get_bind]
  unfold extend
  rcases htokens : r.tokens with _ | ⟨⟨token, p⟩, rest⟩
  · rw [htokens] at hdone
    exact hdone
  · rw [htokens] at hdone
    cases token with
    | punct sign =>
      dsimp only
      cases operation? sign with
      | none => exact hdone
      | some op =>
        dsimp only
        by_cases hlow : precedence op < minimum
        · rw [if_pos hlow, if_pos hlow]
          exact hdone
        · rw [if_neg hlow, if_neg hlow]
          have hright := hbinary (precedence op + 1) n ⟨rest, p, r.nesting, r.history⟩ hr hn
          refine (Follows.advance_bind htokens
            (hright.bind (n := 0) fun right _ hnesting => ?_)).mono (Nat.zero_le _)
          exact .step_bind fun e => hoperators minimum n e _ (hnesting.trans hr) hn
    | _ => exact hdone

/-- **Each part of an angle follows its function**; the induction is on the bound. -/
theorem follows_read (bound : List Located) :
    FollowsBinary bound ∧ FollowsUnary bound ∧ FollowsOperators bound := by
  induction bound with
  | nil =>
    have hbinary : FollowsBinary [] := by
      intro minimum n r hr hn
      rw [Counting.binary, climb]
      exact .fail _
    refine ⟨hbinary, followsUnary_nil hbinary, fun minimum n left r hr hn => ?_⟩
    rw [Counting.operators, extend]
    exact .pure left
  | cons b bound ih =>
    obtain ⟨hbelow, hunary, hoperators⟩ := ih
    have hbinary : FollowsBinary (b :: bound) := followsBinary_cons hunary hoperators
    exact ⟨hbinary, followsUnary_cons hbinary hunary, followsOperators_cons hbelow hoperators⟩

end Parts

/-! ## Bookkeeping -/

/-- The functions that read an angle or a part of one. -/
inductive Part where
  | nested
  | binary (minimum : ℕ)
  | unary
  | primary

namespace Part

/-- A part that is read with the counter. -/
def read (bound : List Located) : Part → Counting Subtree
  | nested => Counting.nested bound
  | binary minimum => Counting.binary bound minimum
  | unary => Counting.unary bound
  | primary => Counting.primary bound

/-- The function that reads a part, with the number of open levels handed to it. -/
def function (bound : List Located) (nesting : ℕ) (last : Position) (ts : List Located) :
    Part → SubtreeResult
  | nested => Grammar.nested (climb bound) nesting last ts
  | binary minimum => climb bound minimum nesting ts
  | unary => Grammar.unary (climb bound) nesting ts
  | primary => Grammar.primary (climb bound) nesting ts

variable {bound : List Located} {n : ℕ} {r : Reader}

/-- Each part follows its function, and takes a token. -/
theorem follows (part : Part) (bound : List Located) (hr : r.nesting = n) (hn : n ≤ nestingLimit) :
    Follows 1 r (part.function bound n r.last r.tokens) (part.read bound r) := by
  obtain ⟨hbinary, hunary, -⟩ := follows_read bound
  cases part with
  | nested => exact follows_nested hbinary hr hn
  | binary minimum => exact hbinary minimum n r hr hn
  | unary => exact hunary n r hr hn
  | primary => exact follows_primary hbinary hr hn

/-- What each part gives has the height that it is said to have. -/
theorem sound_of_function (part : Part) {last : Position} {ts rest : List Located} {s : Subtree}
    (h : part.function bound n last ts = .ok (s, rest)) : s.Sound := by
  have hclimb (minimum nesting : ℕ) := ensures_climb bound minimum nesting
  cases part with
  | nested =>
    rw [function, Grammar.nested] at h
    split at h
    · cases h
    · exact hclimb 0 _ _ _ _ h
  | binary minimum => exact hclimb minimum n _ _ _ h
  | unary => exact ensures_unary hclimb n _ _ _ h
  | primary => exact ensures_primary hclimb n _ _ _ h

/-- **The bookkeeping of the parser is exact.**  From any state whose counter does not exceed the
limit, each part gives what its function gives.  The counter is back at the end, and no value that
it was given on the way is below the one that it had or above the limit; this holds behind an error
too.  Where a part is read, its height is the height of the tree and does not exceed the limit, at
least one token was taken from the front, and the tokens behind it are left. -/
theorem read_exact (part : Part) (bound : List Located) (r : Reader) {n : ℕ} (hr : r.nesting = n)
    (hn : n ≤ nestingLimit) :
    (part.read bound r).1 = (part.function bound n r.last r.tokens).map Prod.fst ∧
      (part.read bound r).2.nesting = n ∧
      (∃ values, (part.read bound r).2.history = values ++ r.history ∧
        ∀ k ∈ values, (n : ℤ) ≤ k ∧ k ≤ nestingLimit) ∧
      ∀ s, (part.read bound r).1 = .ok s →
        s.height = s.angle.depth ∧ s.height ≤ nestingLimit ∧
        (∃ used, used ≠ [] ∧ r.tokens = used ++ (part.read bound r).2.tokens) ∧
        part.function bound n r.last r.tokens = .ok (s, (part.read bound r).2.tokens) := by
  have follows := part.follows bound hr hn
  refine ⟨follows.outcome, follows.kept.nesting_eq.trans hr, hr ▸ follows.kept.between, ?_⟩
  intro s hs
  rw [follows.outcome, map_eq_ok] at hs
  obtain ⟨⟨_, rest⟩, hfunction, rfl⟩ := hs
  obtain ⟨htokens, used, hused, hsplit⟩ := follows.taken _ _ hfunction
  have sound := part.sound_of_function hfunction
  refine ⟨sound.height_eq, sound.height_le, ⟨used, List.length_pos_iff.1 hused, ?_⟩, ?_⟩
  · rw [htokens]
    exact hsplit
  · rw [htokens]
    exact hfunction

/-- A state in which two more levels may be opened, in front of `-a / 2)`. -/
def nearlyFull : Reader where
  tokens := [.punct .minus, .ident "a", .punct .slash, .float 2, .punct .rightParen].map
    (Located.mk · .start)
  last := .start
  nesting := 254
  history := []

theorem read_exact_nearlyFull :
    ∃ s, (nested.read nearlyFull.tokens nearlyFull).1 = .ok s ∧
      s.angle = .binary .div (.neg (.var "a")) (.const 2) ∧ s.height = s.angle.depth ∧
      (nested.read nearlyFull.tokens nearlyFull).2.nesting = 254 ∧
      ∃ values, (nested.read nearlyFull.tokens nearlyFull).2.history = values ++ [] ∧
        ∀ k ∈ values, (254 : ℤ) ≤ k ∧ k ≤ nestingLimit := by
  obtain ⟨houtcome, hnesting, hvalues, hsound⟩ :=
    read_exact nested nearlyFull.tokens nearlyFull (n := 254) rfl (by decide)
  have hread : (nested.read nearlyFull.tokens nearlyFull).1 =
      .ok ⟨.binary .div (.neg (.var "a")) (.const 2), 3⟩ := by
    rw [houtcome]
    rfl
  exact ⟨_, hread, rfl, (hsound _ hread).1, hnesting, hvalues⟩

end Part

end FlatQasm.Grammar
