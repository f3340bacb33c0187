import FlatQasm.Proofs.Grammar.Takes
import FlatQasm.Proofs.Program.Spelling

/-!
# Reading what is printed

The tokens of each part of a program are read as that part again, whatever stands behind them.  An
angle is printed with parentheses around every operation, so that its operators are read at their
places; what is read folds to it, since only the sign of a number is taken apart.

An angle is read at twice its height at most: a negation is a minus sign and a parenthesis.  And the
tree that is read is higher by one at most, for a number with a sign.  So an angle of half the
height that the parser allows is never refused.

## Main definitions

* `Angle.Printable` — an angle whose text is read as the same angle.
* `Stops` — no operator goes on behind an angle.

## Main statements

* `takes_angle` — the tokens of an angle.
* `takes_call`, `takes_gateDefinition`, `takes_statementKind` — those of the parts of a program.
* `takes_statements` — those of accepted statements.
-/

namespace FlatQasm

/-- The greatest height at which an angle is read back, whatever its numbers are. -/
def printableDepth : Nat := 128

/-- What is asked of an angle so that its text is read as the same angle. -/
structure Angle.Printable (e : Angle) : Prop where
  folded : e.simplify = e
  depth_le : e.depth ≤ printableDepth
  divisors : e.NoZeroDivisor
  spelled : e.Spelled

namespace Grammar

open FlatQasm.Grammar.Parser (Takes)

variable {ts us : List Token}

/-! ## Operators and parentheses -/

section Climbing

variable {bound : List Located} {b : Located} {minimum nesting : Nat} {P : Subtree → Prop}

/-- No operator of at least the given precedence stands at the front. -/
def Stops (minimum : Nat) (us : List Token) : Prop :=
  ∀ sign op, us.head? = some (.punct sign) → operation? sign = some op → precedence op < minimum

theorem stops_operandPrecedence (us : List Token) : Stops operandPrecedence us := by
  intro sign op _ _
  cases op <;> decide

theorem stops_cons {sign : Punct} (h : operation? sign = none) (minimum : Nat) (us : List Token) :
    Stops minimum (.punct sign :: us) := by
  rintro _ op ⟨⟩ hop
  rw [h] at hop
  cases hop

@[simp] theorem operation?_punct (op : ArithOp) : operation? op.punct = some op := by
  cases op <;> rfl

theorem stops_cons_of_lt {op : ArithOp} (h : precedence op < minimum) (us : List Token) :
    Stops minimum (.punct op.punct :: us) := by
  rintro _ op' ⟨⟩ hop
  rw [operation?_punct] at hop
  cases hop
  exact h

theorem Stops.mono {least : Nat} (stops : Stops least us) (h : least ≤ minimum) :
    Stops minimum us :=
  fun sign op hsign hop => Nat.lt_of_lt_of_le (stops sign op hsign hop) h

/-- Where no operator goes on, the tree that was read so far is the whole one. -/
theorem extend_of_stops {located : List Located} (stops : Stops minimum (located.map Located.token))
    (left : Subtree) : extend bound minimum nesting left located = .ok (left, located) := by
  cases bound with
  | nil => rw [extend]
  | cons b bound =>
    unfold extend
    split
    · next sign p rest =>
      split
      · next op hop => rw [if_pos (stops sign op rfl hop)]
      · rfl
    · rfl

theorem takes_extend (stops : Stops minimum us) (left : Subtree) :
    @Takes Subtree (extend bound minimum nesting left) us (· = left) us := by
  intro located hts
  exact ⟨left, located, extend_of_stops (hts ▸ stops) left, rfl, hts⟩

/-- An operand behind which no operator goes on. -/
theorem takes_climb (hunary : @Takes Subtree (unary (climb bound) nesting) ts P us)
    (stops : Stops minimum us) : @Takes Subtree (climb (b :: bound) minimum nesting) ts P us := by
  intro located hts
  obtain ⟨s, rest, hs, hP, hrest⟩ := hunary located hts
  obtain ⟨_, behind, hextend, rfl, hus⟩ := takes_extend stops s rest hrest
  refine ⟨_, behind, ?_, hP, hus⟩
  rw [climb]
  exact bind_eq_ok.2 ⟨_, hs, hextend⟩

variable {inner : (minimum nesting : Nat) → List Located → SubtreeResult}

/-- A number, a variable or the circle number. -/
theorem takes_leaf {t : Token} {e : Angle}
    (h : ∀ p rest, unary inner nesting (⟨t, p⟩ :: rest) = .ok (⟨e, 1⟩, rest)) :
    @Takes Subtree (unary inner nesting) (t :: us) (· = ⟨e, 1⟩) us := by
  intro located hts
  obtain ⟨p, rest, rfl, hus⟩ := exists_of_map_eq_cons hts
  exact ⟨_, rest, h p rest, rfl, hus⟩

theorem takes_parentheses (hnesting : nesting < nestingLimit)
    (h : @Takes Subtree (inner 0 (nesting + 1)) ts P (.punct .rightParen :: us)) :
    @Takes Subtree (unary inner nesting) (.punct .leftParen :: ts) P us := by
  intro located hts
  obtain ⟨p, rest, rfl, hrest⟩ := exists_of_map_eq_cons hts
  obtain ⟨s, behind, hs, hP, hbehind⟩ := h rest hrest
  obtain ⟨⟨⟩, behind', hexpect, -, hus⟩ := takes_expect behind hbehind
  refine ⟨s, behind', bind_eq_ok.2 ⟨(s, behind), ?_, bind_eq_ok.2 ⟨_, hexpect, rfl⟩⟩, hP, hus⟩
  rw [nested, if_neg (Nat.not_le.2 hnesting)]
  exact hs

theorem takes_minus (hnesting : nesting < nestingLimit)
    (h : @Takes Subtree (inner operandPrecedence (nesting + 1)) ts
      (fun s => s.height + 1 ≤ nestingLimit ∧ P ⟨.neg s.angle, s.height + 1⟩) us) :
    @Takes Subtree (unary inner nesting) (.punct .minus :: ts) P us := by
  intro located hts
  obtain ⟨p, rest, rfl, hrest⟩ := exists_of_map_eq_cons hts
  obtain ⟨s, behind, hs, ⟨hheight, hP⟩, hus⟩ := h rest hrest
  refine ⟨_, behind, ?_, hP, hus⟩
  have hnegate : negate p s = .ok ⟨.neg s.angle, s.height + 1⟩ := if_neg (Nat.not_lt.2 hheight)
  rw [unary, if_neg (Nat.not_le.2 hnesting)]
  exact bind_eq_ok.2 ⟨_, hs, bind_eq_ok.2 ⟨_, hnegate, rfl⟩⟩

/-- Two operands with an operator between them, behind which nothing goes on. -/
theorem takes_operation {b' b'' : Located} {op : ArithOp} {vs : List Token} {Q : Subtree → Prop}
    (hleft : @Takes Subtree (unary (climb (b' :: b'' :: bound)) nesting) ts P
      (.punct op.punct :: us))
    (hright : @Takes Subtree (unary (climb bound) nesting) us Q vs)
    (hstops : ∀ minimum, Stops minimum vs) {R : Subtree → Prop}
    (hjoin : ∀ left right p, P left → Q right → ∃ s, join op p left right = .ok s ∧ R s) :
    @Takes Subtree (climb (b :: b' :: b'' :: bound) 0 nesting) ts R vs := by
  intro located hts
  obtain ⟨left, rest, hl, hP, hrest⟩ := hleft located hts
  obtain ⟨p, rest, rfl, hus⟩ := exists_of_map_eq_cons hrest
  obtain ⟨right, behind, hr, hQ, hbehind⟩ :=
    takes_climb (b := b'') hright (hstops (precedence op + 1)) rest hus
  obtain ⟨s, hs, hR⟩ := hjoin left right p hP hQ
  obtain ⟨_, behind', hextend, rfl, hvs⟩ :=
    @takes_extend vs (b'' :: bound) 0 nesting (hstops 0) s behind hbehind
  refine ⟨_, behind', ?_, hR, hvs⟩
  rw [climb]
  refine bind_eq_ok.2 ⟨_, hl, ?_⟩
  dsimp only
  rw [extend]
  dsimp only
  rw [operation?_punct]
  dsimp only
  rw [if_neg (Nat.not_lt_zero _)]
  exact bind_eq_ok.2 ⟨_, hr, bind_eq_ok.2 ⟨_, hs, hextend⟩⟩

end Climbing

/-! ## Angles -/

/-- A subtree that folds to an angle, and is higher by one at most. -/
structure Subtree.Reads (e : Angle) (s : Subtree) : Prop where
  folds : s.angle.simplify = e
  height_le : s.height ≤ e.depth + 1

theorem exists_cons_of_succ_le {n : Nat} {bound : List Located} (h : n + 1 ≤ bound.length) :
    ∃ b rest, bound = b :: rest ∧ n ≤ rest.length := by
  cases bound with
  | nil => cases h
  | cons b rest => exact ⟨b, rest, rfl, Nat.le_of_succ_le_succ h⟩

/-- A divisor that is not zero passes the check, in the form in which it is read. -/
theorem join_eq_ok {op : ArithOp} {a b : Angle} {left right : Subtree}
    (hleft : left.Reads a) (hright : right.Reads b)
    (hdivisor : op = .div → ∀ v, b = .const v → (v == 0.0) = false)
    (hdepth : max a.depth b.depth + 2 ≤ nestingLimit) (p : Position) :
    join op p left right =
      .ok ⟨.binary op left.angle right.angle, max left.height right.height + 1⟩ := by
  have hzero : ¬ (decide (op = .div) && isZero right.angle) = true := by
    rw [Bool.and_eq_true, decide_eq_true_eq, isZero]
    rintro ⟨hop, h⟩
    split at h
    · next v hv =>
      rw [Angle.value?_eq_some_iff, hright.folds] at hv
      rw [hdivisor hop v hv] at h
      cases h
    · cases h
  have hheight : ¬ nestingLimit < max left.height right.height + 1 := by
    have := hleft.height_le
    have := hright.height_le
    omega
  simp only [join]
  rw [if_neg hzero, if_neg hheight]

/-- The tokens of a finite number, of which a minus sign may be the first. -/
theorem takes_number {v : Float} (hv : v.isFinite = true) {bound : List Located}
    (hbound : (numberTokens v).length ≤ bound.length) {nesting : Nat}
    (hnesting : nesting < nestingLimit) (us : List Token) :
    @Takes Subtree (unary (climb bound) nesting) (numberTokens v ++ us)
      (Subtree.Reads (.const v)) us := by
  have hsigned := Decimal.ofSignAndBits_magnitudeBits hv
  have hneg : -Decimal.ofSignAndBits false _ = Decimal.ofSignAndBits true _ :=
    Decimal.neg_ofSignAndBits false (Decimal.magnitudeBits_lt hv)
  simp only [numberTokens] at hbound ⊢
  generalize hm : Decimal.ofSignAndBits false (Decimal.magnitudeBits v) = m at *
  have magnitude {inner : (minimum nesting : Nat) → List Located → SubtreeResult} {nesting : Nat} :
      @Takes Subtree (unary inner nesting) (.float m :: us) (· = ⟨.const m, 1⟩) us :=
    takes_leaf fun p rest => rfl
  cases hnegative : Decimal.isNegative v with
  | false =>
    rw [hnegative] at hsigned
    refine magnitude.mono fun s hs => ?_
    subst hs
    exact ⟨by rw [← hm, hsigned]; rfl, Nat.le_succ 1⟩
  | true =>
    rw [hnegative] at hsigned hbound
    obtain ⟨b, bound, rfl, -⟩ := exists_cons_of_succ_le hbound
    refine takes_minus hnesting ?_
    refine (takes_climb magnitude (stops_operandPrecedence us)).mono fun s hs => ?_
    subst hs
    exact ⟨(by decide : 2 ≤ nestingLimit), by rw [← hsigned, ← hneg]; rfl, Nat.le_refl 2⟩

/-- **The tokens of a folded angle are read as a subtree that folds to it.**  Each token goes down
the bound, so that it is never used up. -/
theorem takes_unary {e : Angle} (folded : e.simplify = e) (divisors : e.NoZeroDivisor)
    (spelled : e.Spelled) {bound : List Located} (hbound : e.tokens.length ≤ bound.length)
    {nesting : Nat} (hnesting : nesting + 2 * e.depth ≤ nestingLimit + 1) (us : List Token) :
    @Takes Subtree (unary (climb bound) nesting) (e.tokens ++ us) (Subtree.Reads e) us := by
  have hlimit : nestingLimit = 256 := rfl
  induction e generalizing bound nesting us with
  | const v =>
    have hdepth : (Angle.const v).depth = 1 := rfl
    exact takes_number spelled hbound (by omega) us
  | var name =>
    refine (takes_leaf fun p rest => rfl).mono fun s hs => ?_
    subst hs
    exact ⟨rfl, Nat.le_succ 1⟩
  | pi => cases folded
  | neg e ih =>
    have inner := Angle.simplify_of_neg folded
    have hdepth : (Angle.neg e).depth = e.depth + 1 := rfl
    have hpos := e.depth_pos
    simp only [Angle.tokens, List.cons_append, List.append_assoc, List.nil_append,
      List.length_cons, List.length_append, List.length_nil] at hbound ⊢
    obtain ⟨b, bound, rfl, hrest⟩ := exists_cons_of_succ_le hbound
    obtain ⟨b', bound, rfl, hinner⟩ := exists_cons_of_succ_le hrest
    have operand : @Takes Subtree (unary (climb bound) (nesting + 1 + 1))
        (e.tokens ++ .punct .rightParen :: us) (Subtree.Reads e) (.punct .rightParen :: us) :=
      ih inner divisors spelled (Nat.le_of_succ_le hinner) (by omega) _
    refine takes_minus (by omega) (takes_climb ?_ (stops_operandPrecedence us))
    refine takes_parentheses (by omega) (takes_climb ?_ (stops_cons rfl 0 us))
    refine operand.mono fun s hs => ?_
    have hheight := hs.height_le
    refine ⟨by omega, ?_, ?_⟩
    · rw [Angle.simplify_neg, inner] at folded
      rw [Angle.simplify_neg, hs.folds]
      exact folded
    · exact Nat.succ_le_succ hheight
  | binary op a b iha ihb =>
    obtain ⟨foldedLeft, foldedRight⟩ := Angle.simplify_of_binary folded
    obtain ⟨divisorsLeft, divisorsRight, hdivisor⟩ := divisors
    have hdepth : (Angle.binary op a b).depth = max a.depth b.depth + 1 := rfl
    have hpos := a.depth_pos
    simp only [Angle.tokens, List.cons_append, List.append_assoc, List.nil_append,
      List.length_cons, List.length_append, List.length_nil] at hbound ⊢
    have hlength : a.tokens.length + b.tokens.length + 1 + 1 + 1 ≤ bound.length := by omega
    obtain ⟨c, bound, rfl, hrest⟩ := exists_cons_of_succ_le hlength
    obtain ⟨c', bound, rfl, hrest'⟩ := exists_cons_of_succ_le hrest
    obtain ⟨c'', bound, rfl, hinner⟩ := exists_cons_of_succ_le hrest'
    have left : @Takes Subtree (unary (climb (c' :: c'' :: bound)) (nesting + 1)) (a.tokens ++ _)
        (Subtree.Reads a) _ :=
      iha foldedLeft divisorsLeft spelled.1 (by simp only [List.length_cons]; omega) (by omega)
        (.punct op.punct :: (b.tokens ++ .punct .rightParen :: us))
    have right : @Takes Subtree (unary (climb bound) (nesting + 1)) (b.tokens ++ _)
        (Subtree.Reads b) _ :=
      ihb foldedRight divisorsRight spelled.2 (by omega) (by omega) (.punct .rightParen :: us)
    refine takes_parentheses (by omega) ?_
    refine takes_operation left right (fun minimum => stops_cons rfl minimum us) ?_
    intro l r p hl hr
    refine ⟨_, join_eq_ok hl hr hdivisor (by omega) p, ?_, ?_⟩
    · rw [Angle.simplify_binary, hl.folds, hr.folds]
      rw [Angle.simplify_binary, foldedLeft, foldedRight] at folded
      exact folded
    · have hleft := hl.height_le
      have hright := hr.height_le
      show max l.height r.height + 1 ≤ max a.depth b.depth + 1 + 1
      omega

/-- The tokens of an angle in front of a comma or a parenthesis. -/
theorem takes_angle {e : Angle} (h : e.Printable) {sign : Punct} (hsign : operation? sign = none) :
    angle.Takes (e.tokens ++ .punct sign :: us) (fun e' => e'.simplify = e)
      (.punct sign :: us) := by
  intro located hts
  have hlength : e.tokens.length + 1 ≤ located.length := by
    rw [← List.length_map Located.token, hts, List.length_append, List.length_cons]
    omega
  have hdepth := h.depth_le
  have hlimit : nestingLimit = 2 * printableDepth := rfl
  obtain ⟨b, bound, hlocated, hbound⟩ := exists_cons_of_succ_le hlength
  have operand := takes_unary h.folded h.divisors h.spelled hbound
    (by omega : 1 + 2 * e.depth ≤ nestingLimit + 1) (.punct sign :: us)
  obtain ⟨s, rest, hs, reads, hus⟩ :=
    takes_climb (b := b) operand (stops_cons hsign 0 us) located hts
  refine ⟨s.angle, rest, ?_, reads.folds, hus⟩
  rw [← hlocated] at hs
  exact bind_eq_ok.2 ⟨_, hs, rfl⟩

theorem exists_angleTokens_eq_cons (e : Angle) :
    ∃ t ts, e.tokens = t :: ts ∧ t ≠ .punct .rightParen := by
  cases e with
  | const v =>
    simp only [Angle.tokens, numberTokens]
    cases Decimal.isNegative v with
    | true => exact ⟨_, _, rfl, by simp⟩
    | false => exact ⟨_, _, rfl, by simp⟩
  | _ => exact ⟨_, _, rfl, by simp⟩

/-- The arguments of a gate, up to the closing parenthesis. -/
theorem takes_arguments {params : List Angle} (hne : params ≠ [])
    (h : ∀ e ∈ params, e.Printable) :
    arguments.Takes (listTokens (params.map Angle.tokens) ++ .punct .rightParen :: us)
      (· = params) (.punct .rightParen :: us) := by
  refine Takes.get.bind fun located hlocated => ?_
  have hnext : nextIs .rightParen located = false := by
    obtain ⟨e, others, rfl⟩ := List.exists_cons_of_ne_nil hne
    obtain ⟨t, ts, htokens, ht⟩ := exists_angleTokens_eq_cons e
    rw [listTokens, List.map_cons, intercalate_cons, htokens] at hlocated
    obtain ⟨p, rest, rfl, -⟩ := exists_of_map_eq_cons hlocated
    exact nextIs_eq_false ht p rest
  rw [hnext]
  have list : (commaSeparated angle).Takes
      ([Token.punct .comma].intercalate (params.map Angle.tokens) ++ .punct .rightParen :: us)
      (List.Forall₂ (fun e e' => e'.simplify = e) params) (.punct .rightParen :: us) := by
    refine takes_commaSeparated hne (by simp) fun e he t vs ht => ?_
    rcases ht with rfl | rfl
    · exact takes_angle (h e he) rfl
    · exact takes_angle (h e he) rfl
  exact list.bind fun args hargs => .pure (map_eq_of_forall₂ hargs)

/-! ## Operands and names -/

/-- An operand in front of anything but an index. -/
theorem takes_operand (o : Operand) {t : Token} (ht : t ≠ .punct .leftBracket) :
    operand.Takes (o.tokens ++ t :: us) (· = o) (t :: us) := by
  cases o with
  | register name =>
    refine takes_identifier.bind fun ⟨found, p⟩ hfound => ?_
    obtain rfl : found = name := hfound
    exact (takes_accept_of_ne ht).step (.pure rfl)
  | element name index =>
    refine takes_identifier.bind fun ⟨found, p⟩ hfound => ?_
    obtain rfl : found = name := hfound
    exact takes_accept.step (takes_integer.step (takes_expect.step (.pure rfl)))

/-- A qubit of a gate in front of anything but an index. -/
theorem takes_formalOperand {qubits : List String} {q : String} (hq : q ∈ qubits) {t : Token}
    (ht : t ≠ .punct .leftBracket) :
    (formalOperand qubits).Takes ((Operand.register q).tokens ++ t :: us) (· = .register q)
      (t :: us) := by
  refine takes_identifier.bind fun ⟨found, p⟩ hfound => ?_
  obtain rfl : found = q := hfound
  dsimp only
  rw [if_neg (not_not.2 hq)]
  refine Takes.get.bind fun located hlocated => ?_
  obtain ⟨p, rest, rfl, -⟩ := exists_of_map_eq_cons hlocated
  rw [nextIs_eq_false ht p rest]
  exact .pure rfl

/-- Some operands up to the semicolon. -/
theorem takes_operands {operand : Parser Operand} {operands : List Operand} (hne : operands ≠ [])
    (hoperand : ∀ o ∈ operands, ∀ t vs, t ≠ .punct .leftBracket →
      operand.Takes (o.tokens ++ t :: vs) (· = o) (t :: vs)) :
    (commaSeparated operand).Takes
      (listTokens (operands.map Operand.tokens) ++ .punct .semicolon :: us) (· = operands)
      (.punct .semicolon :: us) := by
  have list : (commaSeparated operand).Takes
      ([Token.punct .comma].intercalate (operands.map Operand.tokens) ++ .punct .semicolon :: us)
      (List.Forall₂ (fun o o' => o' = o) operands) (.punct .semicolon :: us) := by
    refine takes_commaSeparated hne (by simp) fun o ho t vs ht => hoperand o ho t vs ?_
    rcases ht with rfl | rfl <;> simp
  exact list.mono fun found hfound => (eq_map_of_forall₂ hfound).trans (List.map_id operands)

/-- Some names up to a sign. -/
theorem takes_names {list : List String} (hne : list ≠ []) {end_ : Token}
    (hend : end_ ≠ .punct .comma) :
    names.Takes (listTokens (nameTokens list) ++ end_ :: us) (· = list) (end_ :: us) := by
  have found : (commaSeparated identifier).Takes
      ([Token.punct .comma].intercalate (list.map fun name => [.ident name]) ++ end_ :: us)
      (List.Forall₂ (fun name found => found.1 = name) list) (end_ :: us) :=
    takes_commaSeparated hne hend fun name _ t vs _ => takes_identifier
  exact found.bind fun pairs hpairs => .pure (map_eq_of_forall₂ hpairs)

/-! ## Calls and definitions -/

theorem exists_listTokens_eq_cons {α : Type} {pieces : α → List Token} {xs : List α} (hne : xs ≠ [])
    (h : ∀ x ∈ xs, ∃ name ts, pieces x = .ident name :: ts) :
    ∃ name ts, listTokens (xs.map pieces) = .ident name :: ts := by
  obtain ⟨x, others, rfl⟩ := List.exists_cons_of_ne_nil hne
  obtain ⟨name, ts, hx⟩ := h x List.mem_cons_self
  rw [listTokens, List.map_cons, intercalate_cons, hx]
  exact ⟨name, _, rfl⟩

theorem exists_nameTokens_eq_cons {list : List String} (hne : list ≠ []) :
    ∃ name ts, listTokens (nameTokens list) = .ident name :: ts :=
  @exists_listTokens_eq_cons _ (fun name => [.ident name]) list hne fun name _ => ⟨name, [], rfl⟩

/-- A list in parentheses, which are left out with it, in front of a name. -/
theorem takes_parenthesized {α : Type} {given absent : Parser α} {pieces : List (List Token)}
    {ts : List Token} {P : α → Prop} (hname : ∃ name rest, ts = .ident name :: rest)
    (hgiven : pieces ≠ [] → given.Takes (listTokens pieces ++ .punct .rightParen :: ts) P us)
    (habsent : pieces = [] → absent.Takes ts P us) :
    Takes (do if ← accept .leftParen then given else absent) (parenthesizedTokens pieces ++ ts)
      P us := by
  cases pieces with
  | nil =>
    obtain ⟨name, rest, rfl⟩ := hname
    exact Takes.step (a := false) (takes_accept_of_ne (by simp)) (habsent rfl)
  | cons piece pieces =>
    have hparens : parenthesizedTokens (piece :: pieces) ++ ts =
        .punct .leftParen :: (listTokens (piece :: pieces) ++ .punct .rightParen :: ts) := by
      rw [parenthesizedTokens, if_neg (by simp), List.cons_append, List.append_assoc,
        List.singleton_append]
    rw [hparens]
    exact takes_accept.step (hgiven (List.cons_ne_nil _ _))

/-- **The tokens of an accepted call.** -/
theorem takes_call {scope : Scope} {operand : Parser Operand} {c : GateCall}
    (accepted : c.Accepted scope) (hparams : ∀ e ∈ c.params, e.Printable) (hne : c.operands ≠ [])
    (hoperand : ∀ o ∈ c.operands, ∀ t vs, t ≠ .punct .leftBracket →
      operand.Takes (o.tokens ++ t :: vs) (· = o) (t :: vs)) :
    (call scope operand).Takes (c.tokens ++ us) (· = c) us := by
  obtain ⟨arity, harity, hparamCount, hoperandCount⟩ := accepted
  simp only [GateCall.tokens, List.cons_append, List.append_assoc, List.nil_append]
  refine takes_identifier.bind fun found hname => ?_
  obtain ⟨name, p⟩ := found
  obtain rfl : name = c.name := hname
  dsimp only
  rw [harity]
  dsimp only
  have behind : Takes (do
      let operands ← commaSeparated operand
      expect .semicolon
      if c.params.length ≠ arity.params then
        fail (.wrongParamCount p c.name arity.params c.params.length)
      else if operands.length ≠ arity.qubits then
        fail (.wrongQubitCount p c.name arity.qubits operands.length)
      else pure (⟨c.name, c.params, operands⟩ : GateCall))
      (listTokens (c.operands.map Operand.tokens) ++ .punct .semicolon :: us) (· = c) us := by
    refine (takes_operands hne hoperand).step (takes_expect.step ?_)
    rw [if_neg (not_not.2 hparamCount), if_neg (not_not.2 hoperandCount)]
    exact .pure rfl
  have hstart (o : Operand) : ∃ name ts, o.tokens = .ident name :: ts := by
    cases o <;> exact ⟨_, _, rfl⟩
  obtain ⟨name, ts, hts⟩ := exists_listTokens_eq_cons hne fun o _ => hstart o
  refine takes_parenthesized ⟨name, _, by rw [hts, List.cons_append]⟩ (fun hne => ?_) fun hnil => ?_
  · have hne : c.params ≠ [] := fun h => hne (by rw [h, List.map_nil])
    exact (takes_arguments hne hparams).step (takes_expect.step behind)
  · rw [List.map_eq_nil_iff.1 hnil] at behind
    exact behind

/-- The calls of a body and the closing brace.  Each call takes a token, so that the bound is never
used up. -/
theorem takes_body {scope : Scope} {qubits : List String} {calls : List GateCall}
    (accepted : ∀ c ∈ calls, c.Accepted scope) (hparams : ∀ c ∈ calls, ∀ e ∈ c.params, e.Printable)
    (hne : ∀ c ∈ calls, c.operands ≠ [])
    (hformal : ∀ c ∈ calls, ∀ o ∈ c.operands, ∃ q ∈ qubits, o = .register q)
    {bound : List Located} (hbound : calls.length + 1 ≤ bound.length) :
    (body scope qubits bound).Takes (calls.flatMap GateCall.tokens ++ .punct .rightBrace :: us)
      (· = calls) us := by
  induction calls generalizing bound with
  | nil =>
    obtain ⟨b, bound, rfl, -⟩ := exists_cons_of_succ_le hbound
    rw [body]
    exact takes_accept.step (.pure rfl)
  | cons c calls ih =>
    rw [List.forall_mem_cons] at accepted hparams hne hformal
    obtain ⟨b, bound, rfl, hrest⟩ := exists_cons_of_succ_le hbound
    have others := ih accepted.2 hparams.2 hne.2 hformal.2 hrest
    have first : (call scope (formalOperand qubits)).Takes
        (c.tokens ++ (calls.flatMap GateCall.tokens ++ .punct .rightBrace :: us)) (· = c)
        (calls.flatMap GateCall.tokens ++ .punct .rightBrace :: us) := by
      refine takes_call accepted.1 hparams.1 hne.1 fun o ho t vs ht => ?_
      obtain ⟨q, hq, rfl⟩ := hformal.1 o ho
      exact takes_formalOperand hq ht
    rw [body, List.flatMap_cons, List.append_assoc]
    refine Takes.step (a := false) (takes_accept_of_ne (by simp)) ?_
    refine Takes.get.bind fun located hlocated => ?_
    obtain ⟨p, rest, rfl, -⟩ := exists_of_map_eq_cons hlocated
    exact first.step (others.step (.pure rfl))

/-- The tokens of an accepted definition, behind its name and its formal angles. -/
theorem takes_definitionRest {scope : Scope} {d : GateDefinition} (accepted : d.Accepted scope)
    (hparams : ∀ c ∈ d.body, ∀ e ∈ c.params, e.Printable) (hne : ∀ c ∈ d.body, c.operands ≠ [])
    (p : Position) : Takes (do
      let qubits ← names
      match firstRepeated? (d.params ++ qubits) with
      | some formal => fail (.duplicateDeclaration p formal)
      | none =>
        expect .leftBrace
        let calls ← body scope qubits (← get)
        pure (⟨d.name, d.params, qubits, calls⟩ : GateDefinition))
      (listTokens (nameTokens d.qubits) ++
        .punct .leftBrace :: (d.body.flatMap GateCall.tokens ++ .punct .rightBrace :: us))
      (· = d) us := by
  refine (takes_names accepted.qubits (by simp)).step ?_
  rw [firstRepeated?_eq_none.2 accepted.formals]
  refine takes_expect.step (Takes.get.bind fun bound hbound => ?_)
  have hlength : d.body.length + 1 ≤ bound.length := by
    rw [← List.length_map Located.token, hbound, List.length_append, List.length_cons]
    have hcalls : d.body.length ≤ (d.body.flatMap GateCall.tokens).length :=
      length_le_flatMap fun c _ => List.cons_ne_nil _ _
    omega
  exact (takes_body accepted.calls hparams hne accepted.operands hlength).step (.pure rfl)

/-- **The tokens of an accepted definition**, behind its keyword. -/
theorem takes_gateDefinition {scope : Scope} {d : GateDefinition} (accepted : d.Accepted scope)
    (hparams : ∀ c ∈ d.body, ∀ e ∈ c.params, e.Printable) (hne : ∀ c ∈ d.body, c.operands ≠ []) :
    (gateDefinition scope).Takes (d.tokens ++ us) (· = d) us := by
  simp only [GateDefinition.tokens, List.cons_append, List.append_assoc, List.nil_append]
  refine takes_identifier.bind fun found hname => ?_
  obtain ⟨name, p⟩ := found
  obtain rfl : name = d.name := hname
  dsimp only
  rw [accepted.new, Option.isSome_none, if_neg Bool.false_ne_true]
  have behind := @takes_definitionRest us scope d accepted hparams hne p
  obtain ⟨name, ts, hts⟩ := exists_nameTokens_eq_cons accepted.qubits
  refine takes_parenthesized ⟨name, _, by rw [hts, List.cons_append]⟩ (fun hne => ?_) fun hnil => ?_
  · have hne : d.params ≠ [] := fun h => hne (by rw [h, nameTokens, List.map_nil])
    obtain ⟨name, ts, hts⟩ := exists_nameTokens_eq_cons hne
    refine Takes.get.bind fun located hlocated => ?_
    have hnext : nextIs .rightParen located = false := by
      rw [hts] at hlocated
      obtain ⟨p, rest, rfl, -⟩ := exists_of_map_eq_cons hlocated
      rfl
    rw [hnext]
    exact (takes_names hne (by simp)).step (takes_expect.step behind)
  · rw [List.map_eq_nil_iff.1 hnil] at behind
    exact behind

/-! ## Statements -/

/-- A register declaration of a size other than zero, behind its keyword. -/
theorem takes_registerDeclaration {scope : Scope} {make : String → UInt32 → StatementKind}
    {name : String} {size : UInt32} (hsize : size ≠ 0) (hname : name ∉ scope.registers) :
    (registerDeclaration scope make).Takes
      (elementTokens name size ++ .punct .semicolon :: us) (· = make name size) us := by
  have hlt : size.toNat < UInt32.size := size.toNat_lt
  have hpos : size.toNat ≠ 0 := fun h => hsize (UInt32.toNat.inj h)
  have hnat := toNat_ofNat_index size
  have hsame : (UInt64.ofNat size.toNat).toUInt32 = size := by
    apply UInt32.toNat.inj
    rw [UInt64.toNat_toUInt32, hnat, Nat.mod_eq_of_lt hlt]
  refine takes_identifier.bind fun ⟨found, p⟩ hfound => ?_
  obtain rfl : found = name := hfound
  refine takes_expect.step (takes_integer.step (takes_expect.step (takes_expect.step ?_)))
  rw [hnat, if_neg (by omega), if_neg hname, hsame]
  exact .pure rfl

theorem takes_measurement (qubit clbit : Operand) :
    measurement.Takes
      (qubit.tokens ++ .punct .arrow :: (clbit.tokens ++ .punct .semicolon :: us))
      (· = .measure qubit clbit) us := by
  refine (takes_operand qubit (by simp)).step (takes_expect.step ?_)
  exact (takes_operand clbit (by simp)).step (takes_expect.step (.pure rfl))

theorem takes_reset (target : Operand) :
    reset.Takes (target.tokens ++ .punct .semicolon :: us) (· = .reset target) us :=
  (takes_operand target (by simp)).step (takes_expect.step (.pure rfl))

theorem takes_barrier {targets : List Operand} (hne : targets ≠ []) :
    barrier.Takes (listTokens (targets.map Operand.tokens) ++ .punct .semicolon :: us)
      (· = .barrier targets) us :=
  (takes_operands hne fun o _ _ _ ht => takes_operand o ht).step (takes_expect.step (.pure rfl))

/-- **The tokens of an accepted statement.** -/
theorem takes_statementKind {scope : Scope} {s : Statement} (accepted : s.Accepted scope)
    (hparams : ∀ c ∈ s.calls, ∀ e ∈ c.params, e.Printable)
    (hne : ∀ c ∈ s.calls, c.operands ≠ []) :
    (statementKind scope).Takes (s.kind.tokens ++ us) (· = s.kind) us := by
  obtain ⟨kind, position⟩ := s
  intro located hts
  have positive {size : UInt32} (h : 0 < size.toNat) : size ≠ 0 := by
    rintro rfl
    cases h
  cases kind with
  | qreg name size =>
    simp only [StatementKind.tokens, List.cons_append, List.append_assoc, List.nil_append] at hts
    obtain ⟨p, rest, rfl, hrest⟩ := exists_of_map_eq_cons hts
    exact takes_registerDeclaration (positive accepted.2) accepted.1 rest hrest
  | creg name size =>
    simp only [StatementKind.tokens, List.cons_append, List.append_assoc, List.nil_append] at hts
    obtain ⟨p, rest, rfl, hrest⟩ := exists_of_map_eq_cons hts
    exact takes_registerDeclaration (positive accepted.2) accepted.1 rest hrest
  | gateDefinition d =>
    obtain ⟨p, rest, rfl, hrest⟩ := exists_of_map_eq_cons hts
    obtain ⟨_, behind, hd, rfl, hus⟩ := takes_gateDefinition accepted hparams hne rest hrest
    exact ⟨_, behind, bind_eq_ok.2 ⟨_, hd, rfl⟩, rfl, hus⟩
  | call c =>
    have hc : c ∈ (⟨.call c, position⟩ : Statement).calls := List.mem_singleton_self c
    obtain ⟨_, behind, hcall, rfl, hus⟩ := takes_call accepted (hparams c hc) (hne c hc)
      (fun o _ t vs ht => takes_operand o ht) located hts
    obtain ⟨p, rest, rfl, -⟩ := exists_of_map_eq_cons hts
    exact ⟨_, behind, bind_eq_ok.2 ⟨_, hcall, rfl⟩, rfl, hus⟩
  | measure qubit clbit =>
    simp only [StatementKind.tokens, List.cons_append, List.append_assoc, List.nil_append] at hts
    obtain ⟨p, rest, rfl, hrest⟩ := exists_of_map_eq_cons hts
    exact takes_measurement qubit clbit rest hrest
  | reset target =>
    simp only [StatementKind.tokens, List.cons_append, List.append_assoc, List.nil_append] at hts
    obtain ⟨p, rest, rfl, hrest⟩ := exists_of_map_eq_cons hts
    exact takes_reset target rest hrest
  | barrier targets =>
    simp only [StatementKind.tokens, List.cons_append, List.append_assoc, List.nil_append] at hts
    obtain ⟨p, rest, rfl, hrest⟩ := exists_of_map_eq_cons hts
    exact takes_barrier accepted rest hrest

section Statements

variable {b : Located} {bound : List Located} {scope : Scope} {t : Token} {vs : List Token}
  {P : StatementKind → Prop} {Q : List Statement → Prop}

/-- A statement in front of others. -/
theorem takes_statements_cons (ht : t ≠ .keyword .includeFile)
    (hkind : (statementKind scope).Takes (t :: ts) P us)
    (hrest : ∀ s : Statement, P s.kind → (statements bound (scope.declare s)).Takes us Q vs) :
    (statements (b :: bound) scope).Takes (t :: ts)
      (fun list => ∃ s rest, list = s :: rest ∧ P s.kind ∧ Q rest) vs := by
  intro located hts
  obtain ⟨kind, behind, hfirst, hP, hus⟩ := hkind located hts
  obtain ⟨p, rest, rfl, hrest'⟩ := exists_of_map_eq_cons hts
  obtain ⟨others, end_, hothers, hQ, hvs⟩ := hrest ⟨kind, p⟩ hP behind hus
  refine ⟨⟨kind, p⟩ :: others, end_, ?_, ⟨_, _, rfl, hP, hQ⟩, hvs⟩
  have hstatement : statement scope (⟨t, p⟩ :: rest) = .ok (⟨kind, p⟩, behind) :=
    bind_eq_ok.2 ⟨_, hfirst, rfl⟩
  rw [statements_of_ne ht]
  exact bind_eq_ok.2 ⟨_, hstatement, bind_eq_ok.2 ⟨_, hothers, rfl⟩⟩

/-- At the end of the tokens there are no more statements. -/
theorem takes_statements_nil : (statements bound scope).Takes [] (· = []) [] := by
  intro located hts
  obtain rfl := List.map_eq_nil_iff.1 hts
  exact ⟨[], [], statements_nil bound scope, rfl, rfl⟩

/-- What a statement starts with is neither the header nor an `include`. -/
theorem exists_statementTokens_eq_cons (kind : StatementKind) : ∃ t ts, kind.tokens = t :: ts ∧
    t ≠ .keyword .includeFile ∧ t ≠ .keyword .openqasm := by
  cases kind <;> exact ⟨_, _, rfl, by simp, by simp⟩

/-- There are at least as many tokens as statements. -/
theorem length_le_statementTokens (list : List Statement) :
    list.length ≤ (list.flatMap fun s => s.kind.tokens).length := by
  refine length_le_flatMap fun s _ => ?_
  obtain ⟨t, ts, htokens, -⟩ := exists_statementTokens_eq_cons s.kind
  rw [htokens]
  exact List.cons_ne_nil t ts

/-- What a statement declares does not depend on its position. -/
theorem declare_congr {s s' : Statement} (h : s'.kind = s.kind) :
    scope.declare s' = scope.declare s := by
  simp only [Scope.declare, h]

/-- **The tokens of statements, each of which is accepted behind those before it.** -/
theorem takes_statements {list : List Statement} (accepted : AcceptedFrom scope list)
    (hparams : ∀ s ∈ list, ∀ c ∈ s.calls, ∀ e ∈ c.params, e.Printable)
    (hne : ∀ s ∈ list, ∀ c ∈ s.calls, c.operands ≠ []) (hbound : list.length ≤ bound.length) :
    (statements bound scope).Takes (list.flatMap fun s => s.kind.tokens)
      (fun found => found.map Statement.kind = list.map Statement.kind) [] := by
  induction list generalizing scope bound with
  | nil => exact takes_statements_nil.mono fun found hfound => by rw [hfound]
  | cons s list ih =>
    rw [List.forall_mem_cons] at hparams hne
    obtain ⟨b, bound, rfl, hrest⟩ := exists_cons_of_succ_le hbound
    have first : (statementKind scope).Takes (s.kind.tokens ++ list.flatMap fun s => s.kind.tokens)
        (· = s.kind) (list.flatMap fun s => s.kind.tokens) :=
      takes_statementKind accepted.1 hparams.1 hne.1
    have others (s' : Statement) (hs : s'.kind = s.kind) :=
      ih (declare_congr hs ▸ accepted.2) hparams.2 hne.2 hrest
    obtain ⟨t, ts, htokens, ht, -⟩ := exists_statementTokens_eq_cons s.kind
    rw [htokens] at first
    rw [List.flatMap_cons, htokens]
    refine (takes_statements_cons ht first others).mono fun found hfound => ?_
    obtain ⟨s', rest, rfl, hs, hrest⟩ := hfound
    rw [List.map_cons, List.map_cons, hs, hrest]

end Statements

/-- The header, whether it has to be there or not. -/
theorem takes_header (rule : HeaderRule) : (header rule).Takes
    (.keyword .openqasm :: .float versionFloat :: .punct .semicolon :: us) (· = some "2.0") us := by
  intro located hts
  obtain ⟨p, rest, rfl, hversion⟩ := exists_of_map_eq_cons hts
  obtain ⟨p', rest, rfl, hsemicolon⟩ := exists_of_map_eq_cons hversion
  obtain ⟨⟨⟩, behind, hexpect, -, hus⟩ := takes_expect rest hsemicolon
  refine ⟨some "2.0", behind, ?_, rfl, hus⟩
  have htwo : (versionFloat == 2.0) = true := rfl
  have hfinish : version.finish rest = .ok ("2.0", behind) := bind_eq_ok.2 ⟨_, hexpect, rfl⟩
  have hversion' : version (⟨.float versionFloat, p'⟩ :: rest) = .ok ("2.0", behind) := by
    rw [version, if_pos htwo, hfinish]
  exact bind_eq_ok.2 ⟨_, hversion', rfl⟩

/-- No header, where none has to be. -/
theorem takes_noHeader (h : ∀ t ∈ ts.head?, t ≠ .keyword .openqasm) :
    (header .optional).Takes ts (· = none) ts := by
  intro located hts
  refine ⟨none, located, ?_, rfl, hts⟩
  unfold header
  split
  · next p rest => exact absurd rfl (h (.keyword .openqasm) (by rw [← hts]; rfl))
  · rfl

/-- **The tokens of an accepted program.** -/
theorem takes_program {p : Program} {rule : HeaderRule}
    (hversion : p.version = none ∨ p.version = some "2.0")
    (hrule : rule = .optional ∨ p.version = some "2.0")
    (accepted : AcceptedFrom .empty p.statements)
    (hparams : ∀ s ∈ p.statements, ∀ c ∈ s.calls, ∀ e ∈ c.params, e.Printable)
    (hne : ∀ s ∈ p.statements, ∀ c ∈ s.calls, c.operands ≠ []) :
    (program rule).Takes p.tokens (fun p' => p'.version = p.version ∧
      p'.statements.map Statement.kind = p.statements.map Statement.kind) [] := by
  have headed : (header rule).Takes p.tokens (· = p.version)
      (p.statements.flatMap fun s => s.kind.tokens) := by
    rw [Program.tokens, Program.headerTokens]
    obtain hnone | hsome := hversion
    · obtain rfl : rule = .optional := hrule.resolve_right (by simp [hnone])
      rw [hnone]
      refine takes_noHeader fun t ht => ?_
      cases hlist : p.statements with
      | nil =>
        rw [hlist] at ht
        cases ht
      | cons s list =>
        obtain ⟨t', ts, htokens, -, ht'⟩ := exists_statementTokens_eq_cons s.kind
        rw [hlist, List.flatMap_cons, htokens] at ht
        cases ht
        exact ht'
    · rw [hsome]
      exact takes_header rule
  refine headed.step (Takes.get.bind fun bound hbound => ?_)
  have hlength : p.statements.length ≤ bound.length := by
    rw [← List.length_map Located.token, hbound]
    exact length_le_statementTokens p.statements
  exact (takes_statements accepted hparams hne hlength).bind fun list hlist => .pure ⟨rfl, hlist⟩

end Grammar

end FlatQasm
