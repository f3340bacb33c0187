import FlatQasm.Proofs.Grammar.Angles
import FlatQasm.Proofs.Grammar.Reading

/-!
# The grammar of angles

Angles have a grammar with a category for each level of precedence:

    expr    := term (("+" | "-") term)*
    term    := unary (("*" | "/") unary)*
    unary   := "-" unary | primary
    primary := number | "pi" | identifier | "(" expr ")"

Chains group to the left.  Climbing reads all four categories with one loop: the least precedence
that it is called with says which category it reads.  What carries both directions is that the tree
that was read so far belongs to some category, and that no operator of a tighter one goes on behind
it; so the next operator of the loop can take it as its left operand.

## Main definitions

* `Category`, `Derives` — the grammar, with the tree of each derivation.
* `Angle.Admissible` — the trees that the parser does not refuse.
* `ClimbDerives`, `ExtendDerives` — what both loops keep while they read.
* `SettlesOperand`, `SettlesChain` — how the tokens of a category are read or refused.
* `ReadsOperand`, `ReadsChain` — how they are read within the limit.

## Main statements

* `climbDerives` — what is read is derived.
* `Derives.settles` — what is derived is read or refused, when nothing is divided by zero.
* `Derives.reads` — what is derived is read, up to its last token.
* `angle_eq_ok_iff` — an angle is read exactly when it is derived, within the limits.
* `angle_cases` — an angle that is derived and not read is refused for its depth.
-/

namespace FlatQasm

/-- An angle that is not too high and in which no divisor has the number zero. -/
structure Angle.Admissible (e : Angle) : Prop where
  depth_le : e.depth ≤ nestingLimit
  divisors : ∀ x y, (x, y) ∈ e.quotients → ∀ v, y.value? = some v → (v == 0.0) = false

namespace Angle.Admissible

variable {op : ArithOp} {e a b : Angle}

theorem operand (h : (neg e).Admissible) : e.Admissible where
  depth_le := Nat.le_of_succ_le h.depth_le
  divisors := h.divisors

theorem left (h : (binary op a b).Admissible) : a.Admissible where
  depth_le := by
    have hdepth : max a.depth b.depth + 1 ≤ nestingLimit := h.depth_le
    omega
  divisors := fun x y hmem => h.divisors x y (mem_quotients_binary.2 (.inr (.inl hmem)))

theorem right (h : (binary op a b).Admissible) : b.Admissible where
  depth_le := by
    have hdepth : max a.depth b.depth + 1 ≤ nestingLimit := h.depth_le
    omega
  divisors := fun x y hmem => h.divisors x y (mem_quotients_binary.2 (.inr (.inr hmem)))

end Angle.Admissible

namespace Grammar

/-! ## Derivations -/

/-- The categories of the grammar, from the loosest to the tightest. -/
inductive Category where
  | expr
  | term
  | unary
  | primary

/-- What tokens of a category stand for.  Parentheses leave nothing in the tree.  The number says
how many parentheses and minus signs are open at once, where most are. -/
inductive Derives : Category → List Token → Angle → (opened : Nat) → Prop
  | sum {op : ArithOp} {u v : List Token} {a b : Angle} {m n : Nat} :
      op = .add ∨ op = .sub → Derives .expr u a m → Derives .term v b n →
      Derives .expr (u ++ .punct op.punct :: v) (.binary op a b) (max m n)
  | expr {u : List Token} {e : Angle} {n : Nat} : Derives .term u e n → Derives .expr u e n
  | product {op : ArithOp} {u v : List Token} {a b : Angle} {m n : Nat} :
      op = .mul ∨ op = .div → Derives .term u a m → Derives .unary v b n →
      Derives .term (u ++ .punct op.punct :: v) (.binary op a b) (max m n)
  | term {u : List Token} {e : Angle} {n : Nat} : Derives .unary u e n → Derives .term u e n
  | minus {u : List Token} {e : Angle} {n : Nat} :
      Derives .unary u e n → Derives .unary (.punct .minus :: u) (.neg e) (n + 1)
  | unary {u : List Token} {e : Angle} {n : Nat} : Derives .primary u e n → Derives .unary u e n
  | int {literal : IntLiteral} :
      Derives .primary [.int literal] (.const literal.toFloat) 0
  | float {value : Float} : Derives .primary [.float value] (.const value) 0
  | pi : Derives .primary [.keyword .pi] .pi 0
  | ident {name : String} : Derives .primary [.ident name] (.var name) 0
  | parentheses {u : List Token} {e : Angle} {n : Nat} : Derives .expr u e n →
      Derives .primary (.punct .leftParen :: (u ++ [.punct .rightParen])) e (n + 1)

theorem Derives.length_pos {c : Category} {u : List Token} {e : Angle} {n : Nat}
    (h : Derives c u e n) : 0 < u.length := by
  induction h <;> simp_all

/-- The category that is read with a least precedence. -/
def Category.ofPrecedence : Nat → Category
  | 0 | 1 => .expr
  | 2 => .term
  | _ => .unary

section Levels

variable {u v : List Token} {e a b : Angle} {m n : Nat}

/-- What belongs to a category belongs to the looser ones. -/
theorem Derives.loosen {low high : Nat} (h : low ≤ high)
    (hu : Derives (.ofPrecedence high) u e n) : Derives (.ofPrecedence low) u e n := by
  match low, high with
  | 0, 0 | 0, 1 | 1, 1 | 2, 2 => exact hu
  | 0, 2 | 1, 2 => exact .expr hu
  | 0, _ + 3 | 1, _ + 3 => exact .expr (.term hu)
  | 2, _ + 3 => exact .term hu
  | _ + 3, _ + 3 => exact hu

/-- An operator stands between its own category and the next tighter one. -/
theorem Derives.operation (op : ArithOp) (hu : Derives (.ofPrecedence (precedence op)) u a m)
    (hv : Derives (.ofPrecedence (precedence op + 1)) v b n) :
    Derives (.ofPrecedence (precedence op)) (u ++ .punct op.punct :: v) (.binary op a b)
      (max m n) := by
  cases op with
  | add => exact .sum (.inl rfl) hu hv
  | sub => exact .sum (.inr rfl) hu hv
  | mul => exact .product (.inl rfl) hu hv
  | div => exact .product (.inr rfl) hu hv

end Levels

theorem operation?_eq_some {sign : Punct} {op : ArithOp} (h : operation? sign = some op) :
    sign = op.punct := by
  cases sign <;> cases h <;> rfl

/-- The punctuation that was expected is the token that was taken. -/
theorem expect_eq_ok {sign : Punct} {ts rest : List Located} {u : Unit}
    (h : expect sign ts = .ok (u, rest)) : ∃ p, ts = ⟨.punct sign, p⟩ :: rest := by
  by_cases hnext : nextIs sign ts
  · simp only [expect, if_pos hnext] at h
    unfold nextIs at hnext
    split at hnext
    · next found p behind =>
      cases h
      exact ⟨p, by simpa using hnext⟩
    · cases hnext
  · simp [expect, if_neg hnext] at h

theorem angle_of_negate {p : Position} {operand s : Subtree} (h : negate p operand = .ok s) :
    s.angle = .neg operand.angle := by
  simp only [negate] at h
  split at h
  · cases h
  · cases h
    rfl

theorem angle_of_join {op : ArithOp} {p : Position} {left right s : Subtree}
    (h : join op p left right = .ok s) : s.angle = .binary op left.angle right.angle := by
  simp only [join] at h
  split at h
  · cases h
  · split at h
    · cases h
    · cases h
      rfl

/-! ## What is read is derived -/

/-- The tokens that are taken from the front of `ts`, behind those of `front`, derive an angle in
the category of a least precedence, inside some open levels, and no operator of that precedence goes
on behind them. -/
def Taken (front : List Token) (minimum nesting : Nat) (ts : List Located) (e : Angle)
    (rest : List Located) : Prop :=
  ∃ us opened, ts = us ++ rest ∧
    Derives (.ofPrecedence minimum) (front ++ us.map Located.token) e opened ∧
    nesting + opened ≤ nestingLimit ∧ Stops minimum (rest.map Located.token)

section Taken

variable {front : List Token} {minimum nesting : Nat} {ts rest : List Located} {e : Angle}

/-- Nothing is taken where no operator goes on. -/
theorem Taken.done {level m : Nat} (hlevel : minimum ≤ level)
    (hfront : Derives (.ofPrecedence level) front e m) (hnesting : nesting + m ≤ nestingLimit)
    (stops : Stops minimum (ts.map Located.token)) : Taken front minimum nesting ts e ts :=
  ⟨[], m, rfl, by simpa using hfront.loosen hlevel, hnesting, stops⟩

/-- Tokens that were taken before move to the front. -/
theorem Taken.behind {us : List Located}
    (h : Taken (front ++ us.map Located.token) minimum nesting ts e rest) :
    Taken front minimum nesting (us ++ ts) e rest := by
  obtain ⟨vs, opened, rfl, hderives, hopened, stops⟩ := h
  exact ⟨us ++ vs, opened, by simp, by simpa using hderives, hopened, stops⟩

end Taken

/-- No operator goes on where no punctuation is next. -/
theorem stops_of_ne {ts : List Located} (h : ∀ sign p rest, ts ≠ ⟨.punct sign, p⟩ :: rest)
    (minimum : Nat) : Stops minimum (ts.map Located.token) := by
  intro sign op hsign _
  cases ts with
  | nil => cases hsign
  | cons t rest =>
    obtain ⟨token, p⟩ := t
    cases hsign
    exact absurd rfl (h sign p rest)

/-- What is climbed is derived, up to a number of tokens. -/
def ClimbDerives (inner : (minimum nesting : Nat) → List Located → SubtreeResult) (size : Nat) :
    Prop :=
  ∀ minimum nesting ts s rest, ts.length ≤ size → nesting ≤ nestingLimit →
    inner minimum nesting ts = .ok (s, rest) → Taken [] minimum nesting ts s.angle rest

/-- What goes on behind a tree is derived with it.  The tree belongs to the category of `level`, and
no operator of a tighter one goes on behind it. -/
def ExtendDerives (bound : List Located) : Prop :=
  ∀ front minimum level nesting m left ts s rest, ts.length ≤ bound.length → minimum ≤ level →
    Derives (.ofPrecedence level) front left.angle m → nesting + m ≤ nestingLimit →
    Stops (level + 1) (ts.map Located.token) →
    extend bound minimum nesting left ts = .ok (s, rest) →
    Taken front minimum nesting ts s.angle rest

section Soundness

variable {inner : (minimum nesting : Nat) → List Located → SubtreeResult} {size : Nat}
  (hinner : ClimbDerives inner size)
include hinner

theorem derives_of_primary {nesting : Nat} {ts rest : List Located} {s : Subtree}
    (hsize : ts.length ≤ size + 1) (hnesting : nesting ≤ nestingLimit)
    (h : primary inner nesting ts = .ok (s, rest)) :
    ∃ us opened, ts = us ++ rest ∧ Derives .primary (us.map Located.token) s.angle opened ∧
      nesting + opened ≤ nestingLimit := by
  simp only [primary] at h
  split at h
  · cases h
    exact ⟨[_], 0, rfl, .int, hnesting⟩
  · cases h
    exact ⟨[_], 0, rfl, .float, hnesting⟩
  · cases h
    exact ⟨[_], 0, rfl, .pi, hnesting⟩
  · cases h
    exact ⟨[_], 0, rfl, .ident, hnesting⟩
  · next p behind =>
    obtain ⟨⟨found, between⟩, hnested, h⟩ := bind_eq_ok.1 h
    obtain ⟨⟨_, rest'⟩, hclose, h⟩ := bind_eq_ok.1 h
    cases h
    obtain ⟨p', rfl⟩ := expect_eq_ok hclose
    by_cases hlimit : nestingLimit ≤ nesting
    · simp [nested, hlimit] at hnested
    · rw [nested, if_neg hlimit] at hnested
      obtain ⟨us, opened, rfl, hus, hopened, -⟩ :=
        hinner _ _ _ _ _ (Nat.le_of_succ_le_succ hsize) (by omega) hnested
      refine ⟨⟨.punct .leftParen, p⟩ :: (us ++ [⟨.punct .rightParen, p'⟩]), opened + 1, ?_, ?_, ?_⟩
      · simp
      · simpa using Derives.parentheses hus
      · omega
  · cases h

theorem derives_of_unary {nesting : Nat} {ts rest : List Located} {s : Subtree}
    (hsize : ts.length ≤ size + 1) (hnesting : nesting ≤ nestingLimit)
    (h : unary inner nesting ts = .ok (s, rest)) :
    ∃ us opened, ts = us ++ rest ∧ Derives .unary (us.map Located.token) s.angle opened ∧
      nesting + opened ≤ nestingLimit := by
  simp only [unary] at h
  split at h
  · next p behind =>
    by_cases hlimit : nestingLimit ≤ nesting
    · simp [hlimit] at h
    · rw [if_neg hlimit] at h
      obtain ⟨⟨operand, rest'⟩, hoperand, h⟩ := bind_eq_ok.1 h
      obtain ⟨s', hnegate, h⟩ := bind_eq_ok.1 h
      cases h
      obtain ⟨us, opened, rfl, hus, hopened, -⟩ :=
        hinner _ _ _ _ _ (Nat.le_of_succ_le_succ hsize) (by omega) hoperand
      refine ⟨⟨.punct .minus, p⟩ :: us, opened + 1, rfl, ?_, by omega⟩
      rw [angle_of_negate hnegate]
      exact .minus hus
  · obtain ⟨us, opened, hts, hus, hopened⟩ := derives_of_primary hinner hsize hnesting h
    exact ⟨us, opened, hts, .unary hus, hopened⟩

end Soundness

section Loops

variable {b : Located} {bound : List Located}

/-- An operand, and what goes on behind it. -/
theorem climbDerives_cons (hclimb : ClimbDerives (climb bound) bound.length)
    (hextend : ExtendDerives bound) :
    ClimbDerives (climb (b :: bound)) (bound.length + 1) := by
  intro minimum nesting ts s rest hsize hnesting h
  obtain ⟨⟨left, behind⟩, hleft, hrest⟩ := bind_eq_ok.1 h
  obtain ⟨us, opened, rfl, hus, hopened⟩ := derives_of_unary hclimb hsize hnesting hleft
  have hpos := hus.length_pos
  simp only [List.length_append, List.length_map] at hsize hpos
  refine Taken.behind ?_
  refine hextend _ minimum (minimum + 3) nesting opened left behind s rest (by omega) (by omega)
    hus hopened ?_ hrest
  exact (stops_operandPrecedence _).mono (by simp [operandPrecedence])

/-- An operator takes the tree so far as its left operand, and the level goes down to its own. -/
theorem extendDerives_cons (hclimb : ClimbDerives (climb bound) bound.length)
    (hextend : ExtendDerives bound) : ExtendDerives (b :: bound) := by
  intro front minimum level nesting m left ts s rest hsize hlevel hfront hnesting stops h
  unfold extend at h
  split at h
  · next sign p behind =>
    split at h
    · next op hop =>
      obtain rfl := operation?_eq_some hop
      by_cases hlow : precedence op < minimum
      · rw [if_pos hlow] at h
        cases h
        exact .done hlevel hfront hnesting (stops_cons_of_lt hlow _)
      · rw [if_neg hlow] at h
        obtain ⟨⟨right, behind'⟩, hright, h⟩ := bind_eq_ok.1 h
        obtain ⟨e, hjoin, hrest⟩ := bind_eq_ok.1 h
        have htighter : precedence op < level + 1 := stops _ op rfl hop
        obtain ⟨us, opened, rfl, hus, hopened, hstops⟩ :=
          hclimb _ _ _ _ _ (Nat.le_of_succ_le_succ hsize) (by omega) hright
        have operation := Derives.operation op (hfront.loosen (by omega)) hus
        rw [← angle_of_join hjoin] at operation
        simp only [List.length_cons, List.length_append] at hsize
        rw [← List.cons_append]
        refine Taken.behind ?_
        exact hextend _ minimum (precedence op) nesting (max m opened) e behind' s rest (by omega)
          (by omega) operation (by omega) hstops hrest
    · next hop =>
      cases h
      exact .done hlevel hfront hnesting (stops_cons hop minimum _)
  · next hne =>
    cases h
    exact .done hlevel hfront hnesting (stops_of_ne hne minimum)

end Loops

/-- **What both loops read is derived**; the induction is on the bound. -/
theorem climbDerives_extendDerives (bound : List Located) :
    ClimbDerives (climb bound) bound.length ∧ ExtendDerives bound := by
  induction bound with
  | nil =>
    constructor
    · intro minimum nesting ts s rest _ _ h
      cases h
    · intro front minimum level nesting m left ts s rest hsize hlevel hfront hnesting _ h
      cases h
      obtain rfl : ts = [] := List.length_eq_zero_iff.1 (Nat.le_zero.1 hsize)
      exact .done hlevel hfront hnesting (by simp [Stops])
  | cons b bound ih =>
    obtain ⟨hclimb, hextend⟩ := ih
    exact ⟨climbDerives_cons hclimb hextend, extendDerives_cons hclimb hextend⟩

/-- What climbing reads is derived. -/
theorem climbDerives (bound : List Located) : ClimbDerives (climb bound) bound.length :=
  (climbDerives_extendDerives bound).1

/-! ## What is derived is read or refused -/

/-- A computation that fails because something is nested too deep. -/
def TooDeep {α : Type} (x : Except ImportError α) : Prop := ∃ p, x = .error (.nestingTooDeep p)

theorem TooDeep.bind {α β : Type} {x : Except ImportError α} (h : TooDeep x)
    (f : α → Except ImportError β) : TooDeep (x >>= f) := by
  obtain ⟨p, rfl⟩ := h
  exact ⟨p, rfl⟩

/-- The levels that are open around an angle and in it, and its height, do not exceed the limit. -/
structure Within (nesting opened : Nat) (e : Angle) : Prop where
  opened_le : nesting + opened ≤ nestingLimit
  depth_le : e.depth ≤ nestingLimit

/-- An operand is read up to its last token, whatever stands behind it, when it is within the limit,
and otherwise it is refused. -/
def SettlesOperand (u : List Token) (e : Angle) (opened : Nat) : Prop :=
  ∀ us ts bound nesting, us.map Located.token = u → us.length ≤ bound.length + 1 →
    nesting ≤ nestingLimit →
    Within nesting opened e ∧ unary (climb bound) nesting (us ++ ts) = .ok (⟨e, e.depth⟩, ts) ∨
      ¬ Within nesting opened e ∧ TooDeep (unary (climb bound) nesting (us ++ ts))

/-- Climbing at a level comes to the end of a chain within the limit, when no tighter operator goes
on behind it, and goes on from there.  The bound has gone down by no more than the tokens of the
chain.  Any other chain is refused. -/
def SettlesChain (level : Nat) (u : List Token) (e : Angle) (opened : Nat) : Prop :=
  ∀ us ts bound minimum nesting, us.map Located.token = u → us.length ≤ bound.length →
    minimum ≤ level → nesting ≤ nestingLimit → Stops (level + 1) (ts.map Located.token) →
    Within nesting opened e ∧ (∃ rest, bound.length ≤ rest.length + us.length ∧
        climb bound minimum nesting (us ++ ts) = extend rest minimum nesting ⟨e, e.depth⟩ ts) ∨
      ¬ Within nesting opened e ∧ TooDeep (climb bound minimum nesting (us ++ ts))

section Settles

variable {u v : List Token} {e a b : Angle} {level m n : Nat}

/-- A minus sign opens a level, and the tree is higher by one. -/
theorem within_neg_iff {nesting : Nat} : Within nesting (n + 1) (.neg e) ↔
    Within (nesting + 1) n e ∧ e.depth + 1 ≤ nestingLimit := by
  constructor
  · rintro ⟨hopened, hdepth⟩
    exact ⟨⟨by omega, Nat.le_of_succ_le hdepth⟩, hdepth⟩
  · rintro ⟨⟨hopened, -⟩, hdepth⟩
    exact ⟨by omega, hdepth⟩

/-- Parentheses open a level. -/
theorem within_open_iff {nesting : Nat} :
    Within nesting (n + 1) e ↔ Within (nesting + 1) n e := by
  constructor
  · rintro ⟨hopened, hdepth⟩
    exact ⟨by omega, hdepth⟩
  · rintro ⟨hopened, hdepth⟩
    exact ⟨by omega, hdepth⟩

/-- Both operands stand at the level of their operation, and the tree is higher by one. -/
theorem within_binary_iff {nesting : Nat} {op : ArithOp} :
    Within nesting (max m n) (.binary op a b) ↔ Within nesting m a ∧ Within nesting n b ∧
      max a.depth b.depth + 1 ≤ nestingLimit := by
  constructor
  · rintro ⟨hopened, hdepth⟩
    have hdepth : max a.depth b.depth + 1 ≤ nestingLimit := hdepth
    exact ⟨⟨by omega, by omega⟩, ⟨by omega, by omega⟩, hdepth⟩
  · rintro ⟨⟨hopened, -⟩, ⟨hopened', -⟩, hdepth⟩
    exact ⟨by omega, hdepth⟩

/-- A divisor is refused exactly when it folds to zero. -/
theorem isZero_iff : isZero e = true ↔ e.FoldsToZero := by
  simp only [Angle.FoldsToZero, ← Angle.value?_eq_some_iff, isZero]
  cases e.value? <;> simp

theorem SettlesChain.loosen {low : Nat} (h : SettlesChain level u e n) (hlow : low ≤ level) :
    SettlesChain low u e n := by
  intro us ts bound minimum nesting hus hbound hminimum hnesting stops
  exact h us ts bound minimum nesting hus hbound (by omega) hnesting (stops.mono (by omega))

/-- An operand is a chain at every level. -/
theorem SettlesOperand.chain (h : SettlesOperand u e n) (hu : 0 < u.length) :
    SettlesChain level u e n := by
  intro us ts bound minimum nesting hus hbound _ hnesting _
  have hlength : us.length = u.length := by rw [← hus, List.length_map]
  cases bound with
  | nil => simp only [List.length_nil] at hbound; omega
  | cons b bound =>
    rw [climb]
    refine (h us ts bound nesting hus hbound hnesting).imp (And.imp_right fun hread => ?_)
      (And.imp_right fun deep => deep.bind _)
    refine ⟨bound, by simp only [List.length_cons]; omega, ?_⟩
    rw [hread]
    rfl

/-- A chain is settled where no operator of its level goes on behind it. -/
theorem SettlesChain.climb_cases (h : SettlesChain level u e n) {us ts bound : List Located}
    {minimum nesting : Nat} (hus : us.map Located.token = u) (hbound : us.length ≤ bound.length)
    (hminimum : minimum ≤ level) (hnesting : nesting ≤ nestingLimit)
    (stops : Stops minimum (ts.map Located.token)) :
    Within nesting n e ∧ climb bound minimum nesting (us ++ ts) = .ok (⟨e, e.depth⟩, ts) ∨
      ¬ Within nesting n e ∧ TooDeep (climb bound minimum nesting (us ++ ts)) := by
  refine (h us ts bound minimum nesting hus hbound hminimum hnesting
    (stops.mono (by omega))).imp_left (And.imp_right ?_)
  rintro ⟨rest, -, hclimb⟩
  rw [hclimb, extend_of_stops stops]

theorem settlesOperand_leaf {t : Token}
    (h : ∀ inner nesting p rest, unary inner nesting (⟨t, p⟩ :: rest) = .ok (⟨e, 1⟩, rest))
    (hdepth : e.depth = 1) : SettlesOperand [t] e 0 := by
  intro us ts bound nesting hus _ hnesting
  obtain ⟨p, rest, rfl, hrest⟩ := exists_of_map_eq_cons hus
  obtain rfl := List.map_eq_nil_iff.1 hrest
  refine .inl ⟨⟨hnesting, hdepth ▸ by decide⟩, ?_⟩
  rw [hdepth]
  exact h (climb bound) nesting p ts

/-- A minus sign opens a level and adds to the height. -/
theorem SettlesOperand.minus (h : SettlesOperand u e n) (hu : 0 < u.length) :
    SettlesOperand (.punct .minus :: u) (.neg e) (n + 1) := by
  intro us ts bound nesting hus hbound hnesting
  obtain ⟨p, us, rfl, hu'⟩ := exists_of_map_eq_cons hus
  rw [within_neg_iff, List.cons_append, unary]
  split
  · refine .inr ⟨fun within => ?_, p, rfl⟩
    have hopened := within.1.opened_le
    omega
  · rcases (h.chain hu).climb_cases hu' (Nat.le_of_succ_le_succ hbound)
      (Nat.le_refl operandPrecedence) (show nesting + 1 ≤ nestingLimit by omega)
      (stops_operandPrecedence (ts.map Located.token)) with ⟨within, hread⟩ | ⟨beyond, deep⟩
    swap
    · exact .inr ⟨fun within => beyond within.1, deep.bind _⟩
    by_cases hdepth : nestingLimit < e.depth + 1
    · have hnegate : negate p ⟨e, e.depth⟩ = .error (.nestingTooDeep p) := if_pos hdepth
      refine .inr ⟨fun within => by omega, p, ?_⟩
      exact bind_eq_error.2 (.inr ⟨_, hread, bind_eq_error.2 (.inl hnegate)⟩)
    · have hnegate : negate p ⟨e, e.depth⟩ = .ok ⟨.neg e, e.depth + 1⟩ := if_neg hdepth
      refine .inl ⟨⟨within, by omega⟩, ?_⟩
      exact bind_eq_ok.2 ⟨_, hread, bind_eq_ok.2 ⟨_, hnegate, rfl⟩⟩

/-- Parentheses open a level, and add nothing to the height. -/
theorem SettlesChain.parentheses (h : SettlesChain level u e n) :
    SettlesOperand (.punct .leftParen :: (u ++ [.punct .rightParen])) e (n + 1) := by
  intro us ts bound nesting hus hbound hnesting
  obtain ⟨p, inside, rfl, hinside⟩ := exists_of_map_eq_cons hus
  obtain ⟨us, end_, rfl, hu, hend⟩ := List.map_eq_append_iff.1 hinside
  obtain ⟨p', behind, rfl, hbehind⟩ := exists_of_map_eq_cons hend
  obtain rfl := List.map_eq_nil_iff.1 hbehind
  simp only [List.length_cons, List.length_append, List.length_nil] at hbound
  have inner : Within (nesting + 1) n e ∧
      nested (climb bound) nesting p (us ++ ⟨.punct .rightParen, p'⟩ :: ts) =
        .ok (⟨e, e.depth⟩, ⟨.punct .rightParen, p'⟩ :: ts) ∨
      ¬ Within (nesting + 1) n e ∧
        TooDeep (nested (climb bound) nesting p (us ++ ⟨.punct .rightParen, p'⟩ :: ts)) := by
    rw [nested]
    split
    · refine .inr ⟨fun within => ?_, _, rfl⟩
      have hopened := within.opened_le
      omega
    · exact h.climb_cases hu (by omega) (Nat.zero_le _) (by omega) (stops_cons rfl 0 _)
  have hclose : expect .rightParen (⟨.punct .rightParen, p'⟩ :: ts) = .ok ((), ts) := rfl
  rw [within_open_iff, List.cons_append, List.append_assoc]
  refine inner.imp (And.imp_right fun hread => ?_) (And.imp_right fun deep => deep.bind _)
  exact bind_eq_ok.2 ⟨_, hread, bind_eq_ok.2 ⟨_, hclose, rfl⟩⟩

/-- Operands are joined when the operation is no division by zero and not too high. -/
theorem join_eq {op : ArithOp} (h : op = .div → ¬ b.FoldsToZero) (p : Position) :
    join op p ⟨a, a.depth⟩ ⟨b, b.depth⟩ =
      if nestingLimit < (Angle.binary op a b).depth then .error (.nestingTooDeep p)
      else .ok ⟨.binary op a b, (Angle.binary op a b).depth⟩ := by
  have hzero : ¬ (decide (op = .div) && isZero b) = true := by
    rw [Bool.and_eq_true, decide_eq_true_iff, isZero_iff]
    rintro ⟨hop, hb⟩
    exact h hop hb
  exact if_neg hzero

/-- **An operator goes on behind a chain of its level**, and its right operand is one of the next
tighter level. -/
theorem SettlesChain.operation {op : ArithOp} (hleft : SettlesChain level u a m)
    (hlevel : precedence op = level) (hright : SettlesChain (level + 1) v b n)
    (h : op = .div → ¬ b.FoldsToZero) :
    SettlesChain level (u ++ .punct op.punct :: v) (.binary op a b) (max m n) := by
  intro us ts bound minimum nesting hus hbound hminimum hnesting stops
  subst hlevel
  obtain ⟨us, behind, rfl, hu, hbehind⟩ := List.map_eq_append_iff.1 hus
  obtain ⟨p, vs, rfl, hv⟩ := exists_of_map_eq_cons hbehind
  simp only [List.length_cons, List.length_append] at hbound ⊢
  rw [within_binary_iff, List.append_assoc, List.cons_append]
  rcases hleft us (⟨.punct op.punct, p⟩ :: (vs ++ ts)) bound minimum nesting hu (by omega) hminimum
    hnesting (stops_cons_of_lt (Nat.lt_succ_self _) _) with
    ⟨within, rest, hrest, hclimb⟩ | ⟨beyond, deep⟩
  swap
  · exact .inr ⟨fun within => beyond within.1, deep⟩
  cases rest with
  | nil => simp only [List.length_nil] at hrest; omega
  | cons c rest =>
    simp only [List.length_cons] at hrest
    rw [hclimb, extend]
    dsimp only
    rw [operation?_punct]
    dsimp only
    rw [if_neg (by omega)]
    have hvs : vs.length ≤ rest.length := by omega
    rcases hright.climb_cases hv hvs (Nat.le_refl _) hnesting stops with
      ⟨within', hread⟩ | ⟨beyond, deep⟩
    swap
    · exact .inr ⟨fun within => beyond within.2.1, deep.bind _⟩
    rw [hread]
    rw [ok_bind]
    by_cases hdepth : nestingLimit < (Angle.binary op a b).depth
    · rw [join_eq h, if_pos hdepth]
      exact .inr ⟨fun within => Nat.not_lt.2 within.2.2 hdepth, p, rfl⟩
    · rw [join_eq h, if_neg hdepth]
      exact .inl ⟨⟨within, within', Nat.le_of_not_lt hdepth⟩, rest, by omega, rfl⟩

/-- How the tokens of a category are settled. -/
def Category.Settles : Category → List Token → Angle → (opened : Nat) → Prop
  | .expr => SettlesChain 1
  | .term => SettlesChain 2
  | .unary | .primary => SettlesOperand

/-- **What is derived is read or refused**, when no divisor folds to zero. -/
theorem Derives.settles {c : Category} (h : Derives c u e n)
    (divisors : ∀ x y, (x, y) ∈ e.quotients → ¬ y.FoldsToZero) : c.Settles u e n := by
  have sides {op : ArithOp} {a b : Angle}
      (divisors : ∀ x y, (x, y) ∈ (Angle.binary op a b).quotients → ¬ y.FoldsToZero) :
      (∀ x y, (x, y) ∈ a.quotients → ¬ y.FoldsToZero) ∧
        (∀ x y, (x, y) ∈ b.quotients → ¬ y.FoldsToZero) ∧ (op = .div → ¬ b.FoldsToZero) :=
    ⟨fun x y hmem => divisors x y (Angle.mem_quotients_binary.2 (.inr (.inl hmem))),
      fun x y hmem => divisors x y (Angle.mem_quotients_binary.2 (.inr (.inr hmem))),
      fun hop => divisors a b (Angle.mem_quotients_binary.2 (.inl ⟨hop, rfl, rfl⟩))⟩
  induction h with
  | @sum op _ _ _ _ _ _ hop _ _ ihleft ihright =>
    have hlevel : precedence op = 1 := by
      obtain rfl | rfl := hop <;> rfl
    obtain ⟨left, right, hdiv⟩ := sides divisors
    exact (ihleft left).operation hlevel (ihright right) hdiv
  | expr _ ih => exact (ih divisors).loosen (by omega)
  | @product op _ _ _ _ _ _ hop _ hv ihleft ihright =>
    have hlevel : precedence op = 2 := by
      obtain rfl | rfl := hop <;> rfl
    obtain ⟨left, right, hdiv⟩ := sides divisors
    exact (ihleft left).operation hlevel ((ihright right).chain hv.length_pos) hdiv
  | term hu ih => exact (ih divisors).chain hu.length_pos
  | minus hu ih => exact (ih divisors).minus hu.length_pos
  | unary _ ih => exact ih divisors
  | int => exact settlesOperand_leaf (fun _ _ _ _ => rfl) rfl
  | float => exact settlesOperand_leaf (fun _ _ _ _ => rfl) rfl
  | pi => exact settlesOperand_leaf (fun _ _ _ _ => rfl) rfl
  | ident => exact settlesOperand_leaf (fun _ _ _ _ => rfl) rfl
  | parentheses _ ih => exact (ih divisors).parentheses

end Settles

/-! ## What is derived within the limit is read -/

/-- An operand is read up to its last token, whatever stands behind it. -/
def ReadsOperand (u : List Token) (e : Angle) (opened : Nat) : Prop :=
  ∀ us ts bound nesting, us.map Located.token = u → us.length ≤ bound.length + 1 →
    nesting + opened ≤ nestingLimit →
    unary (climb bound) nesting (us ++ ts) = .ok (⟨e, e.depth⟩, ts)

/-- Climbing at a level comes to the end of a chain, when no tighter operator goes on behind it, and
goes on from there.  The bound has gone down by no more than the tokens of the chain. -/
def ReadsChain (level : Nat) (u : List Token) (e : Angle) (opened : Nat) : Prop :=
  ∀ us ts bound minimum nesting, us.map Located.token = u → us.length ≤ bound.length →
    minimum ≤ level → nesting + opened ≤ nestingLimit →
    Stops (level + 1) (ts.map Located.token) →
    ∃ rest, bound.length ≤ rest.length + us.length ∧
      climb bound minimum nesting (us ++ ts) = extend rest minimum nesting ⟨e, e.depth⟩ ts

section Completeness

variable {u : List Token} {e : Angle} {level n : Nat}

/-- A chain is read where no operator of its level goes on behind it. -/
theorem ReadsChain.climb_eq_ok (h : ReadsChain level u e n) {us ts bound : List Located}
    {minimum nesting : Nat} (hus : us.map Located.token = u) (hbound : us.length ≤ bound.length)
    (hminimum : minimum ≤ level) (hnesting : nesting + n ≤ nestingLimit)
    (stops : Stops minimum (ts.map Located.token)) :
    climb bound minimum nesting (us ++ ts) = .ok (⟨e, e.depth⟩, ts) := by
  obtain ⟨rest, -, hclimb⟩ := h us ts bound minimum nesting hus hbound hminimum hnesting
    (stops.mono (by omega))
  rw [hclimb, extend_of_stops stops]

theorem SettlesOperand.reads (h : SettlesOperand u e n) (hdepth : e.depth ≤ nestingLimit) :
    ReadsOperand u e n := by
  intro us ts bound nesting hus hbound hnesting
  exact ((h us ts bound nesting hus hbound (by omega)).resolve_right
    fun beyond => beyond.1 ⟨hnesting, hdepth⟩).2

theorem SettlesChain.reads (h : SettlesChain level u e n) (hdepth : e.depth ≤ nestingLimit) :
    ReadsChain level u e n := by
  intro us ts bound minimum nesting hus hbound hminimum hnesting stops
  exact ((h us ts bound minimum nesting hus hbound hminimum (by omega) stops).resolve_right
    fun beyond => beyond.1 ⟨hnesting, hdepth⟩).2

/-- How the tokens of a category are read. -/
def Category.Reads : Category → List Token → Angle → (opened : Nat) → Prop
  | .expr => ReadsChain 1
  | .term => ReadsChain 2
  | .unary | .primary => ReadsOperand

/-- No divisor of an admissible angle folds to zero. -/
theorem not_foldsToZero_of_admissible (h : e.Admissible) :
    ∀ x y, (x, y) ∈ e.quotients → ¬ y.FoldsToZero := by
  rintro x y hmem ⟨v, hv, hzero⟩
  rw [h.divisors x y hmem v (Angle.value?_eq_some_iff.2 hv)] at hzero
  cases hzero

/-- **What is derived is read**, when the parser does not refuse the tree. -/
theorem Derives.reads {c : Category} (h : Derives c u e n) (hadmissible : e.Admissible) :
    c.Reads u e n := by
  have settled := h.settles (not_foldsToZero_of_admissible hadmissible)
  cases c with
  | expr | term => exact SettlesChain.reads settled hadmissible.depth_le
  | unary | primary => exact SettlesOperand.reads settled hadmissible.depth_le

end Completeness

/-! ## Whole angles -/

/-- What is read is admissible. -/
theorem admissible_of_angle {ts rest : List Located} {e : Angle} (h : angle ts = .ok (e, rest)) :
    e.Admissible := by
  have divisors := not_foldsToZero_of_angle h
  obtain ⟨⟨s, behind⟩, hs, heq⟩ := bind_eq_ok.1 h
  cases heq
  have sound := ensures_climb ts 0 1 _ _ _ hs
  refine ⟨sound.height_eq ▸ sound.height_le, ?_⟩
  intro x y hmem v hv
  rw [Bool.eq_false_iff]
  exact fun hzero => divisors x y hmem ⟨v, Angle.value?_eq_some_iff.1 hv, hzero⟩

/-- No operator goes on where none stands. -/
theorem stops_zero_iff {us : List Token} :
    Stops 0 us ↔ ∀ op : ArithOp, us.head? ≠ some (.punct op.punct) := by
  constructor
  · intro stops op hhead
    exact absurd (stops _ op hhead (operation?_punct op)) (Nat.not_lt_zero _)
  · intro h sign op hhead hop
    rw [operation?_eq_some hop] at hhead
    exact absurd hhead (h op)

/-- What is read is derived, and fewer levels than the limit are open in it. -/
theorem exists_derives_of_angle {ts rest : List Located} {e : Angle}
    (h : angle ts = .ok (e, rest)) : ∃ us opened, ts = us ++ rest ∧
      Derives .expr (us.map Located.token) e opened ∧ opened < nestingLimit ∧
      ∀ op : ArithOp, (rest.map Located.token).head? ≠ some (.punct op.punct) := by
  obtain ⟨⟨s, rest'⟩, hs, heq⟩ := bind_eq_ok.1 h
  cases heq
  obtain ⟨us, opened, hts, hderives, hopened, stops⟩ :=
    climbDerives ts 0 1 ts s _ (Nat.le_refl _) (by decide) hs
  exact ⟨us, opened, hts, hderives, by omega, stops_zero_iff.1 stops⟩

/-- What is derived is read where no operator stands behind it. -/
theorem angle_of_derives {us rest : List Located} {e : Angle} {opened : Nat}
    (h : Derives .expr (us.map Located.token) e opened) (hopened : opened < nestingLimit)
    (hadmissible : e.Admissible)
    (hhead : ∀ op : ArithOp, (rest.map Located.token).head? ≠ some (.punct op.punct)) :
    angle (us ++ rest) = .ok (e, rest) := by
  have hclimb : climb (us ++ rest) 0 1 (us ++ rest) = .ok (⟨e, e.depth⟩, rest) :=
    ReadsChain.climb_eq_ok (h.reads hadmissible) rfl (by simp) (Nat.zero_le _) (by omega)
      (stops_zero_iff.2 hhead)
  exact bind_eq_ok.2 ⟨_, hclimb, rfl⟩

/-- **The parser reads exactly the grammar.**  An angle is read from the tokens up to `rest` if and
only if they are derived with it, fewer levels than the limit are open in them, the tree is
admissible, and no operator stands behind them. -/
theorem angle_eq_ok_iff (ts : List Located) (e : Angle) (rest : List Located) :
    angle ts = .ok (e, rest) ↔ ∃ us opened, ts = us ++ rest ∧
      Derives .expr (us.map Located.token) e opened ∧ opened < nestingLimit ∧ e.Admissible ∧
      ∀ op : ArithOp, (rest.map Located.token).head? ≠ some (.punct op.punct) := by
  constructor
  · intro h
    obtain ⟨us, opened, hts, hderives, hopened, hhead⟩ := exists_derives_of_angle h
    exact ⟨us, opened, hts, hderives, hopened, admissible_of_angle h, hhead⟩
  · rintro ⟨us, opened, rfl, hderives, hopened, hadmissible, hhead⟩
    exact angle_of_derives hderives hopened hadmissible hhead

/-- **Which angles are read, and which are refused**, among those that are derived and divide by no
zero.  The angle itself is one of the open levels, so fewer than the limit may be open in it. -/
theorem angle_cases {us rest : List Located} {e : Angle} {opened : Nat}
    (h : Derives .expr (us.map Located.token) e opened)
    (divisors : ∀ x y, (x, y) ∈ e.quotients → ¬ y.FoldsToZero)
    (hhead : ∀ op : ArithOp, (rest.map Located.token).head? ≠ some (.punct op.punct)) :
    Within 1 opened e ∧ angle (us ++ rest) = .ok (e, rest) ∨
      ¬ Within 1 opened e ∧ TooDeep (angle (us ++ rest)) := by
  have settled : SettlesChain 1 (us.map Located.token) e opened := h.settles divisors
  have hbound : us.length ≤ (us ++ rest).length := by simp
  refine (settled.climb_cases rfl hbound (Nat.zero_le 1) (by decide) (stops_zero_iff.2 hhead)).imp
    (And.imp_right fun hread => ?_) (And.imp_right fun deep => deep.bind _)
  exact bind_eq_ok.2 ⟨_, hread, rfl⟩

-- Negation binds tightest, and chains group to the left.
example (p : Position) :
    angle ([.punct .minus, .ident "a", .punct .star, .ident "b", .punct .minus, .ident "c",
      .punct .minus, .ident "d"].map (Located.mk · p)) =
    .ok (.binary .sub (.binary .sub (.binary .mul (.neg (.var "a")) (.var "b")) (.var "c"))
      (.var "d"), []) := rfl

end Grammar

end FlatQasm
