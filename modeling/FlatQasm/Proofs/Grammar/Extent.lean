import FlatQasm.Proofs.Grammar.Agreement
import FlatQasm.Proofs.Grammar.ReadBack
import FlatQasm.Proofs.Grammar.Stratified
import Mathlib.Computability.Language

/-!
# The tokens that a parser reads

What a parser gives is decided by the tokens that it takes and by the one behind them.  A parser
that ends with a semicolon or a brace does not even look at that one.  So statements can be told
apart by their marks alone, and what stands between two of them has no say in what they are.

## Main definitions

* `Parser.Reads`, `Parser.Closes` — a parser takes the same tokens when others stand behind them.
* `plain`, `unit` — the tokens inside a statement, and those of a whole one.

## Main statements

* `Parser.Reads.bind`, `Parser.Closes.bind` — two parsers in a row.
* `closes_statementKind` — a statement.
-/

namespace FlatQasm.Grammar

variable {α α' β β' : Type}

/-- From the same tokens in front of others, of which only the first counts, a second parser reads a
related value. -/
def Parser.Reads (p : Parser α) (p' : Parser α') (R : α → α' → Prop) (L : Language Token) : Prop :=
  ∀ ts a rest, p ts = .ok (a, rest) → ∃ used, ts = used ++ rest ∧ used.map Located.token ∈ L ∧
    ∀ us, us.head? = (rest.map Located.token).head? →
      p'.Takes (used.map Located.token ++ us) (R a) us

/-- The same whatever stands behind the tokens. -/
def Parser.Closes (p : Parser α) (p' : Parser α') (R : α → α' → Prop) (L : Language Token) : Prop :=
  ∀ ts a rest, p ts = .ok (a, rest) → ∃ used, ts = used ++ rest ∧ used ≠ [] ∧
    used.map Located.token ∈ L ∧ ∀ us, p'.Takes (used.map Located.token ++ us) (R a) us

/-- No token is looked at. -/
def Parser.Waits (p : Parser α) (p' : Parser α') (R : α → α' → Prop) : Prop :=
  ∀ ts a rest, p ts = .ok (a, rest) → rest = ts ∧ ∀ us, p'.Takes us (R a) us

open FlatQasm.Grammar.Parser (Takes Reads Closes Waits)

section Laws

variable {p : Parser α} {p' : Parser α'} {f : α → Parser β} {f' : α' → Parser β'}
  {R : α → α' → Prop} {S : β → β' → Prop} {L M : Language Token}

theorem Parser.Waits.pure {a : α} {a' : α'} (h : R a a') : Waits (pure a) (pure a') R := by
  intro ts b rest hb
  cases hb
  exact ⟨rfl, fun us => .pure h⟩

theorem Parser.Waits.fail {e : ImportError} : Waits (fail e : Parser α) p' R := by
  intro ts a rest h
  cases h

theorem Parser.Reads.fail {e : ImportError} : Reads (fail e : Parser α) p' R L := by
  intro ts a rest h
  cases h

theorem Parser.Closes.fail {e : ImportError} : Closes (fail e : Parser α) p' R L := by
  intro ts a rest h
  cases h

theorem Parser.Closes.reads (h : Closes p p' R L) : Reads p p' R L := by
  intro ts a rest ha
  obtain ⟨used, hsplit, -, hused, htakes⟩ := h ts a rest ha
  exact ⟨used, hsplit, hused, fun us _ => htakes us⟩

theorem Parser.Closes.mono (h : Closes p p' R L) (hle : L ≤ M) : Closes p p' R M := by
  intro ts a rest ha
  obtain ⟨used, hsplit, hne, hused, htakes⟩ := h ts a rest ha
  exact ⟨used, hsplit, hne, hle hused, htakes⟩

theorem Parser.Reads.mono (h : Reads p p' R L) (hle : L ≤ M) : Reads p p' R M := by
  intro ts a rest ha
  obtain ⟨used, hsplit, hused, htakes⟩ := h ts a rest ha
  exact ⟨used, hsplit, hle hused, htakes⟩

/-- A value that the second parser reads where the first one did. -/
theorem Parser.Reads.exists_value (h : Reads p p' R L) {ts rest : List Located} {a : α}
    (ha : p ts = .ok (a, rest)) : ∃ a', R a a' := by
  obtain ⟨used, rfl, -, htakes⟩ := h ts a rest ha
  obtain ⟨a', -, -, hR, -⟩ := htakes _ rfl (used ++ rest) List.map_append
  exact ⟨a', hR⟩

/-- No tokens are put back. -/
theorem Parser.Reads.length_le (h : Reads p p' R L) {ts rest : List Located} {a : α}
    (ha : p ts = .ok (a, rest)) : rest.length ≤ ts.length := by
  obtain ⟨used, rfl, -⟩ := h ts a rest ha
  simp

/-- At least one token is taken. -/
theorem Parser.Closes.length_lt (h : Closes p p' R L) {ts rest : List Located} {a : α}
    (ha : p ts = .ok (a, rest)) : rest.length < ts.length := by
  obtain ⟨used, rfl, hne, -⟩ := h ts a rest ha
  have hpos := List.length_pos_iff.2 hne
  rw [List.length_append]
  omega

theorem Parser.Reads.bind (hp : Reads p p' R L) (hf : ∀ a a', R a a' → Reads (f a) (f' a') S M) :
    Reads (p >>= f) (p' >>= f') S (L * M) := by
  intro ts b rest h
  obtain ⟨⟨a, between⟩, ha, hb⟩ := bind_eq_ok.1 h
  obtain ⟨a', hR⟩ := hp.exists_value ha
  obtain ⟨front, rfl, hfront, htakes⟩ := hp ts a between ha
  obtain ⟨back, rfl, hback, -⟩ := hf a a' hR between b rest hb
  refine ⟨front ++ back, (List.append_assoc ..).symm,
    ⟨_, hfront, _, hback, List.map_append.symm⟩, fun us hus => ?_⟩
  rw [List.map_append, List.append_assoc]
  refine (htakes (back.map Located.token ++ us) ?_).bind fun a' hR => ?_
  · cases back with
    | nil => simpa using hus
    | cons t back => rfl
  · obtain ⟨back', hsplit, -, htakes'⟩ := hf a a' hR _ b rest hb
    obtain rfl := List.append_cancel_right hsplit
    exact htakes' us hus

theorem Parser.Closes.bind (hp : Reads p p' R L)
    (hf : ∀ a a', R a a' → Closes (f a) (f' a') S M) : Closes (p >>= f) (p' >>= f') S (L * M) := by
  intro ts b rest h
  obtain ⟨⟨a, between⟩, ha, hb⟩ := bind_eq_ok.1 h
  obtain ⟨a', hR⟩ := hp.exists_value ha
  obtain ⟨front, rfl, hfront, htakes⟩ := hp ts a between ha
  obtain ⟨back, rfl, hne, hback, -⟩ := hf a a' hR between b rest hb
  refine ⟨front ++ back, (List.append_assoc ..).symm, List.append_ne_nil_of_right_ne_nil _ hne,
    ⟨_, hfront, _, hback, List.map_append.symm⟩, fun us => ?_⟩
  rw [List.map_append, List.append_assoc]
  refine (htakes (back.map Located.token ++ us) ?_).bind fun a' hR => ?_
  · -- The first of the tokens behind is one that the second parser takes.
    obtain ⟨t, back, rfl⟩ := List.exists_cons_of_ne_nil hne
    rfl
  · obtain ⟨back', hsplit, -, -, htakes'⟩ := hf a a' hR _ b rest hb
    obtain rfl := List.append_cancel_right hsplit
    exact htakes' us

/-- What is done behind the last token does not look at any other. -/
theorem Parser.Closes.wait (hp : Closes p p' R L) (hf : ∀ a a', R a a' → Waits (f a) (f' a') S) :
    Closes (p >>= f) (p' >>= f') S L := by
  intro ts b rest h
  obtain ⟨⟨a, between⟩, ha, hb⟩ := bind_eq_ok.1 h
  obtain ⟨a', hR⟩ := hp.reads.exists_value ha
  obtain ⟨used, rfl, hne, hused, htakes⟩ := hp ts a between ha
  obtain ⟨rfl, -⟩ := hf a a' hR between b rest hb
  exact ⟨used, rfl, hne, hused, fun us =>
    (htakes us).bind fun a' hR => (hf a a' hR _ b _ hb).2 us⟩

end Laws

/-! ## Tokens without marks -/

/-- Tokens inside a statement: no semicolon and no brace. -/
def plain : Language Token :=
  {u | ∀ t ∈ u, t ≠ .punct .semicolon ∧ t ≠ .punct .leftBrace ∧ t ≠ .punct .rightBrace}

theorem nil_mem_plain : [] ∈ plain := List.forall_mem_nil _

theorem singleton_mem_plain {t : Token} (h : t ≠ .punct .semicolon ∧ t ≠ .punct .leftBrace ∧
    t ≠ .punct .rightBrace) : [t] ∈ plain := List.forall_mem_singleton.2 h

theorem append_mem_plain {u v : List Token} (hu : u ∈ plain) (hv : v ∈ plain) : u ++ v ∈ plain :=
  List.forall_mem_append.2 ⟨hu, hv⟩

theorem plain_mul_le : plain * plain ≤ plain := by
  rintro _ ⟨u, hu, v, hv, rfl⟩
  exact append_mem_plain hu hv

theorem plain_mul_plain_mul_le (L : Language Token) : plain * (plain * L) ≤ plain * L := by
  rw [← mul_assoc]
  exact mul_le_mul_left plain_mul_le L

theorem le_plain_mul (L : Language Token) : L ≤ plain * L :=
  fun u hu => ⟨[], nil_mem_plain, u, hu, rfl⟩

section PlainLaws

variable {p : Parser α} {p' : Parser α'} {f : α → Parser β} {f' : α' → Parser β'}
  {R : α → α' → Prop} {S : β → β' → Prop} {L : Language Token}

theorem Parser.Reads.pure {a : α} {a' : α'} (h : R a a') : Reads (pure a) (pure a') R plain := by
  intro ts b rest hb
  cases hb
  exact ⟨[], rfl, nil_mem_plain, fun us _ => .pure h⟩

theorem Parser.Reads.bind_plain (hp : Reads p p' R plain)
    (hf : ∀ a a', R a a' → Reads (f a) (f' a') S Grammar.plain) :
    Reads (p >>= f) (p' >>= f') S Grammar.plain :=
  (hp.bind hf).mono plain_mul_le

theorem Parser.Closes.bind_plain (hp : Reads p p' R plain)
    (hf : ∀ a a', R a a' → Closes (f a) (f' a') S (Grammar.plain * L)) :
    Closes (p >>= f) (p' >>= f') S (Grammar.plain * L) :=
  (Closes.bind hp hf).mono (plain_mul_plain_mul_le L)

/-- Where the first parsers give the same value. -/
theorem Parser.Reads.next {p' : Parser α} {f' : α → Parser β'} (hp : Reads p p' Eq plain)
    (hf : ∀ a, Reads (f a) (f' a) S Grammar.plain) :
    Reads (p >>= f) (p' >>= f') S Grammar.plain :=
  hp.bind_plain fun a _ h => h ▸ hf a

theorem Parser.Closes.next {p' : Parser α} {f' : α → Parser β'} (hp : Reads p p' Eq plain)
    (hf : ∀ a, Closes (f a) (f' a) S (Grammar.plain * L)) :
    Closes (p >>= f) (p' >>= f') S (Grammar.plain * L) :=
  Closes.bind_plain hp fun a _ h => h ▸ hf a

end PlainLaws

/-! ## Single tokens -/

theorem closes_expect (sign : Punct) :
    Closes (expect sign) (expect sign) Eq {[.punct sign]} := by
  intro ts a rest h
  obtain ⟨p, rfl⟩ := expect_eq_ok h
  exact ⟨[⟨.punct sign, p⟩], rfl, List.cons_ne_nil _ _, rfl, fun us => takes_expect⟩

theorem reads_expect {sign : Punct} (hsign : [.punct sign] ∈ plain) :
    Reads (expect sign) (expect sign) Eq plain :=
  (closes_expect sign).reads.mono fun _ hu => hu ▸ hsign

theorem closes_identifier :
    Closes identifier identifier (fun x x' => x.1 = x'.1) plain := by
  intro ts a rest h
  cases ts with
  | nil => cases h
  | cons t ts =>
    obtain ⟨t, p⟩ := t
    cases t with
    | ident name =>
      cases h
      exact ⟨[⟨.ident name, p⟩], rfl, List.cons_ne_nil _ _, singleton_mem_plain (by simp),
        fun us => takes_identifier.mono fun x hx => hx.symm⟩
    | _ => cases h

section Names

variable {f : String × Position → Parser β} {f' : String × Position → Parser β'} {S : β → β' → Prop}

/-- Behind a name, its position may be another one. -/
theorem reads_identifier_bind
    (hf : ∀ name p p', Reads (f (name, p)) (f' (name, p')) S plain) :
    Reads (identifier >>= f) (identifier >>= f') S plain := by
  refine closes_identifier.reads.bind_plain fun x x' hx => ?_
  obtain ⟨name, p⟩ := x
  obtain ⟨name', p'⟩ := x'
  obtain rfl : name = name' := hx
  exact hf name p p'

theorem closes_identifier_bind {L : Language Token}
    (hf : ∀ name p p', Closes (f (name, p)) (f' (name, p')) S (plain * L)) :
    Closes (identifier >>= f) (identifier >>= f') S (plain * L) := by
  refine Closes.bind_plain closes_identifier.reads fun x x' hx => ?_
  obtain ⟨name, p⟩ := x
  obtain ⟨name', p'⟩ := x'
  obtain rfl : name = name' := hx
  exact hf name p p'

end Names

theorem closes_integer : Closes integer integer Eq plain := by
  intro ts a rest h
  cases ts with
  | nil => cases h
  | cons t ts =>
    obtain ⟨t, p⟩ := t
    cases t with
    | int literal =>
      cases literal with
      | word value =>
        cases h
        exact ⟨[⟨.int (.word _), p⟩], rfl, List.cons_ne_nil _ _, singleton_mem_plain (by simp),
          fun us => takes_integer.mono fun x hx => hx.symm⟩
      | wide => cases h
    | _ => cases h

theorem nextIs_iff {sign : Punct} {ts : List Located} :
    nextIs sign ts = true ↔ (ts.map Located.token).head? = some (.punct sign) := by
  cases ts with
  | nil => simp [nextIs]
  | cons t ts =>
    obtain ⟨t, p⟩ := t
    cases t <;> simp [nextIs]

theorem accept_eq_ok {sign : Punct} {ts rest : List Located} {found : Bool}
    (h : accept sign ts = .ok (found, rest)) : (found = true ∧ ∃ p, ts = ⟨.punct sign, p⟩ :: rest) ∨
      found = false ∧ rest = ts ∧ (ts.map Located.token).head? ≠ some (.punct sign) := by
  by_cases hnext : nextIs sign ts = true
  · rw [accept, if_pos hnext] at h
    cases h
    have hne : ts ≠ [] := by
      rintro rfl
      cases hnext
    obtain ⟨⟨t, p⟩, behind, rfl⟩ := List.exists_cons_of_ne_nil hne
    obtain rfl : t = .punct sign := by simpa using nextIs_iff.1 hnext
    exact .inl ⟨rfl, p, rfl⟩
  · rw [accept, if_neg hnext] at h
    cases h
    exact .inr ⟨rfl, rfl, fun hhead => hnext (nextIs_iff.2 hhead)⟩

theorem takes_accept_of_head {sign : Punct} {us : List Token}
    (h : us.head? ≠ some (.punct sign)) : (accept sign).Takes us (· = false) us := by
  cases us with
  | nil =>
    intro located hts
    obtain rfl := List.map_eq_nil_iff.1 hts
    exact ⟨false, [], rfl, rfl, rfl⟩
  | cons t us => exact takes_accept_of_ne (by simpa using h)

theorem reads_accept {sign : Punct} (hsign : [.punct sign] ∈ plain) :
    Reads (accept sign) (accept sign) Eq plain := by
  intro ts found rest h
  obtain ⟨rfl, p, rfl⟩ | ⟨rfl, rfl, hhead⟩ := accept_eq_ok h
  · exact ⟨[⟨.punct sign, p⟩], rfl, hsign,
      fun us _ => takes_accept.mono fun found hfound => hfound.symm⟩
  · exact ⟨[], rfl, nil_mem_plain,
      fun us hus => (takes_accept_of_head (hus ▸ hhead)).mono fun found hfound => hfound.symm⟩

/-- Looking at the tokens shows the first one. -/
theorem reads_get : Reads (MonadState.get : Parser (List Located)) MonadState.get
    (fun ts ts' => (ts'.map Located.token).head? = (ts.map Located.token).head?) plain := by
  intro ts found rest h
  cases h
  refine ⟨[], rfl, nil_mem_plain, fun us hus => Takes.get.mono fun located hlocated => ?_⟩
  have hlocated : located.map Located.token = us := hlocated
  dsimp only
  rw [hlocated, hus]

theorem nextIs_congr {sign : Punct} {ts ts' : List Located}
    (h : (ts'.map Located.token).head? = (ts.map Located.token).head?) :
    nextIs sign ts' = nextIs sign ts := by
  rw [Bool.eq_iff_iff, nextIs_iff, nextIs_iff, h]

/-! ## Lists -/

section Lists

variable {element : Parser α} {element' : Parser α'} {R : α → α' → Prop}

/-- Each element takes a comma, so that any bound by the tokens will do. -/
theorem reads_afterCommas (helement : Reads element element' R plain) {bound ts rest : List Located}
    {xs : List α} (hbound : ts.length ≤ bound.length)
    (h : afterCommas element bound ts = .ok (xs, rest)) :
    ∃ used, ts = used ++ rest ∧ used.map Located.token ∈ plain ∧ xs.length ≤ used.length ∧
      ∀ us bound', us.head? = (rest.map Located.token).head? → xs.length ≤ bound'.length →
        (afterCommas element' bound').Takes (used.map Located.token ++ us) (List.Forall₂ R xs)
          us := by
  have stop {us : List Token} (hus : us.head? ≠ some (.punct .comma)) (bound' : List Located) :
      (afterCommas element' bound').Takes us (List.Forall₂ R []) us := by
    cases bound' with
    | nil => exact .pure .nil
    | cons => exact (takes_accept_of_head hus).step (.pure .nil)
  induction bound generalizing ts xs with
  | nil =>
    obtain rfl : ts = [] := List.length_eq_zero_iff.1 (Nat.le_zero.1 hbound)
    cases h
    exact ⟨[], rfl, nil_mem_plain, Nat.le_refl _,
      fun us bound' hus _ => stop (by simp [hus]) bound'⟩
  | cons _ bound ih =>
    obtain ⟨⟨found, behind⟩, hfound, hrest⟩ := bind_eq_ok.1 h
    obtain ⟨rfl, p, rfl⟩ | ⟨rfl, rfl, hhead⟩ := accept_eq_ok hfound
    · obtain ⟨⟨x, between⟩, hx, hrest⟩ := bind_eq_ok.1 hrest
      obtain ⟨⟨others, end_⟩, hothers, hrest⟩ := bind_eq_ok.1 hrest
      cases hrest
      obtain ⟨front, rfl, hfront, htakes⟩ := helement behind x between hx
      have hlength : between.length ≤ bound.length := by
        rw [List.length_cons, List.length_cons, List.length_append] at hbound
        omega
      obtain ⟨back, rfl, hback, hcount, htakes'⟩ := ih hlength hothers
      refine ⟨⟨.punct .comma, p⟩ :: (front ++ back), by simp, ?_, ?_,
        fun us bound' hus hbound' => ?_⟩
      · rw [List.map_cons, List.map_append]
        exact append_mem_plain (singleton_mem_plain (by simp)) (append_mem_plain hfront hback)
      · rw [List.length_cons, List.length_cons, List.length_append]
        omega
      · obtain ⟨_, bound', rfl, hothers'⟩ := exists_cons_of_succ_le hbound'
        rw [List.map_cons, List.map_append, List.cons_append, List.append_assoc, afterCommas]
        refine takes_accept.step ((htakes (back.map Located.token ++ us) ?_).bind fun x' hx' => ?_)
        · cases back with
          | nil => simpa using hus
          | cons => rfl
        · exact (htakes' us bound' hus hothers').bind fun xs' hxs' => .pure (.cons hx' hxs')
    · cases hrest
      exact ⟨[], rfl, nil_mem_plain, Nat.le_refl _,
        fun us bound' hus _ => stop (hus ▸ hhead) bound'⟩

theorem reads_commaSeparated (helement : Reads element element' R plain) :
    Reads (commaSeparated element) (commaSeparated element') (List.Forall₂ R) plain := by
  refine helement.bind_plain fun x x' hx => ?_
  intro ts xs rest h
  obtain ⟨⟨others, end_⟩, hothers, hxs⟩ := bind_eq_ok.1 h
  cases hxs
  obtain ⟨used, hsplit, hused, hcount, htakes⟩ := reads_afterCommas helement (Nat.le_refl _) hothers
  refine ⟨used, hsplit, hused, fun us hus => Takes.get.bind fun bound' hbound' => ?_⟩
  have hlength : others.length ≤ bound'.length := by
    rw [← List.length_map Located.token, hbound', List.length_append, List.length_map]
    omega
  exact (htakes us bound' hus hlength).bind fun xs' hxs' => .pure (.cons hx hxs')

/-- Lists of the same elements are the same. -/
theorem reads_list {element element' : Parser α} (helement : Reads element element' Eq plain) :
    Reads (commaSeparated element) (commaSeparated element') Eq plain := by
  have h := reads_commaSeparated helement
  rwa [List.forall₂_eq_eq_eq] at h

end Lists

/-! ## Angles -/

theorem Derives.mem_plain {c : Category} {u : List Token} {e : Angle} {n : Nat}
    (h : Derives c u e n) : u ∈ plain := by
  have hop (op : ArithOp) : [.punct op.punct] ∈ plain := by
    cases op <;> exact singleton_mem_plain (by simp [ArithOp.punct])
  induction h with
  | @sum op _ _ _ _ _ _ _ _ _ ihleft ihright =>
    exact append_mem_plain ihleft (append_mem_plain (hop op) ihright)
  | expr _ ih => exact ih
  | @product op _ _ _ _ _ _ _ _ _ ihleft ihright =>
    exact append_mem_plain ihleft (append_mem_plain (hop op) ihright)
  | term _ ih => exact ih
  | minus _ ih => exact append_mem_plain (singleton_mem_plain (by simp)) ih
  | unary _ ih => exact ih
  | parentheses _ ih =>
    exact append_mem_plain (singleton_mem_plain (by simp))
      (append_mem_plain ih (singleton_mem_plain (by simp)))
  | _ => exact singleton_mem_plain (by simp)

theorem reads_angle : Reads angle angle Eq plain := by
  intro ts e rest h
  obtain ⟨used, opened, hts, hderives, hopened, hhead⟩ := exists_derives_of_angle h
  refine ⟨used, hts, hderives.mem_plain, fun us hus located hlocated => ?_⟩
  obtain ⟨front, behind, rfl, hfront, rfl⟩ := List.map_eq_append_iff.1 hlocated
  rw [← hfront] at hderives
  rw [← hus] at hhead
  exact ⟨e, behind, angle_of_derives hderives hopened (admissible_of_angle h) hhead, rfl, rfl⟩

theorem reads_arguments : Reads arguments arguments Eq plain := by
  refine reads_get.bind_plain fun ts ts' hts => ?_
  rw [nextIs_congr hts]
  split
  · exact .pure rfl
  · exact (reads_list reads_angle).next fun args => .pure rfl

/-! ## Operands and calls -/

theorem reads_operand : Reads operand operand Eq plain := by
  refine reads_identifier_bind fun name p p' => ?_
  refine (reads_accept (singleton_mem_plain (by simp))).next fun found => ?_
  cases found with
  | true =>
    refine closes_integer.reads.next fun index => ?_
    exact (reads_expect (singleton_mem_plain (by simp))).next fun _ => .pure rfl
  | false => exact .pure rfl

theorem reads_formalOperand (qubits : List String) :
    Reads (formalOperand qubits) (formalOperand qubits) Eq plain := by
  refine reads_identifier_bind fun name p p' => ?_
  dsimp only
  split
  · exact .fail
  · refine reads_get.bind_plain fun ts ts' hts => ?_
    rw [nextIs_congr hts]
    split
    · exact reads_get.bind_plain fun _ _ _ => .fail
    · exact .pure rfl

/-- Tokens without marks, and a semicolon. -/
def clause : Language Token := plain * {[.punct .semicolon]}

theorem closes_semicolon : Closes (expect .semicolon) (expect .semicolon) Eq clause :=
  (closes_expect .semicolon).mono (le_plain_mul _)

theorem closes_callOperands {operand operand' : Parser Operand}
    (hoperand : Reads operand operand' Eq plain) (p p' : Position) (name : String) (arity : Arity)
    (params : List Angle) :
    Closes (callOperands operand p name arity params) (callOperands operand' p' name arity params)
      Eq clause := by
  refine Closes.next (reads_list hoperand) fun operands => ?_
  refine closes_semicolon.wait fun _ _ _ => ?_
  split
  · exact .fail
  · split
    · exact .fail
    · exact .pure rfl

theorem closes_call (scope : Scope) {operand operand' : Parser Operand}
    (hoperand : Reads operand operand' Eq plain) :
    Closes (call scope operand) (call scope operand') Eq clause := by
  refine closes_identifier_bind fun name p p' => ?_
  dsimp only
  cases scope.arity? name with
  | none => exact .fail
  | some arity =>
    have hrest := closes_callOperands hoperand p p' name arity
    refine Closes.next (reads_accept (singleton_mem_plain (by simp))) fun found => ?_
    cases found with
    | true =>
      refine Closes.next reads_arguments fun params => ?_
      exact Closes.next (reads_expect (singleton_mem_plain (by simp))) fun _ => hrest params
    | false => exact hrest []

/-! ## Gate definitions -/

theorem reads_names : Reads names names Eq plain := by
  refine (reads_commaSeparated closes_identifier.reads).bind_plain fun list list' h => .pure ?_
  induction h with
  | nil => rfl
  | cons hx _ ih => rw [List.map_cons, List.map_cons, hx, ih]

/-- Tokens without braces. -/
def braceless : Language Token :=
  {u | ∀ t ∈ u, t ≠ .punct .leftBrace ∧ t ≠ .punct .rightBrace}

theorem clause_le_braceless : clause ≤ braceless := by
  rintro _ ⟨u, hu, _, rfl, rfl⟩ t ht
  rcases List.mem_append.1 ht with ht | ht
  · exact (hu t ht).2
  · obtain rfl := List.mem_singleton.1 ht
    simp

/-- A body is read up to its brace, with any bound that is large enough. -/
theorem closes_bounded_body (scope : Scope) (qubits : List String) {bound ts rest : List Located}
    {calls : List GateCall} (h : body scope qubits bound ts = .ok (calls, rest)) :
    ∃ used, ts = used ++ rest ∧ used.map Located.token ∈ braceless * {[.punct .rightBrace]} ∧
      calls.length + 1 ≤ used.length ∧ ∀ us bound', calls.length + 1 ≤ bound'.length →
        (body scope qubits bound').Takes (used.map Located.token ++ us) (calls = ·) us := by
  induction bound generalizing ts calls with
  | nil => cases h
  | cons _ bound ih =>
    obtain ⟨⟨closed, behind⟩, hclosed, hrest⟩ := bind_eq_ok.1 h
    obtain ⟨rfl, p, rfl⟩ | ⟨rfl, rfl, hhead⟩ := accept_eq_ok hclosed
    · cases hrest
      refine ⟨[⟨.punct .rightBrace, p⟩], rfl, ⟨[], List.forall_mem_nil _, _, rfl, rfl⟩, by simp,
        fun us bound' hbound' => ?_⟩
      obtain ⟨_, bound', rfl, -⟩ := exists_cons_of_succ_le hbound'
      exact takes_accept.step (.pure rfl)
    · cases behind with
      | nil => cases hrest
      | cons t behind =>
        obtain ⟨t, p⟩ := t
        cases t with
        | ident name =>
          obtain ⟨⟨first, between⟩, hfirst, hrest⟩ := bind_eq_ok.1 hrest
          obtain ⟨⟨others, end_⟩, hothers, hrest⟩ := bind_eq_ok.1 hrest
          cases hrest
          obtain ⟨front, hfront, hne, hclause, htakes⟩ :=
            closes_call scope (reads_formalOperand qubits) _ _ _ hfirst
          obtain ⟨back, rfl, ⟨v, hv, _, rfl, hback⟩, hcount, htakes'⟩ := ih hothers
          have hpos := List.length_pos_iff.2 hne
          refine ⟨front ++ back, by rw [hfront, List.append_assoc], ?_, ?_,
            fun us bound' hbound' => ?_⟩
          · refine ⟨front.map Located.token ++ v, ?_, _, rfl, ?_⟩
            · exact List.forall_mem_append.2 ⟨clause_le_braceless hclause, hv⟩
            · rw [List.map_append, ← hback]
              exact List.append_assoc ..
          · rw [List.length_cons, List.length_append]
            omega
          · obtain ⟨_, bound', rfl, hbound''⟩ := exists_cons_of_succ_le hbound'
            obtain ⟨t, front, rfl⟩ := List.exists_cons_of_ne_nil hne
            obtain ⟨rfl, -⟩ := List.cons.inj hfront
            rw [List.map_append, List.append_assoc, body]
            refine (takes_accept_of_head (by simp)).step
              (Takes.get.bind fun located hlocated => ?_)
            obtain ⟨p', rest', rfl, -⟩ := exists_of_map_eq_cons hlocated
            refine (htakes _).bind fun first' hfirst' => ?_
            refine (htakes' us bound' hbound'').bind fun others' hothers' => .pure ?_
            rw [hfirst', hothers']
        | _ => cases hrest

theorem closes_body (scope : Scope) (qubits : List String) :
    Closes (MonadState.get >>= body scope qubits) (MonadState.get >>= body scope qubits) Eq
      (braceless * {[.punct .rightBrace]}) := by
  intro ts calls rest h
  have hbody : body scope qubits ts ts = .ok (calls, rest) := h
  obtain ⟨used, hsplit, hused, hcount, htakes⟩ := closes_bounded_body scope qubits hbody
  refine ⟨used, hsplit, by rintro rfl; simp at hcount, hused,
    fun us => Takes.get.bind fun bound hbound => htakes us bound ?_⟩
  rw [← List.length_map Located.token, hbound, List.length_append, List.length_map]
  omega

/-- The tokens of a gate definition behind its keyword. -/
def definition : Language Token :=
  plain * ({[.punct .leftBrace]} * (braceless * {[.punct .rightBrace]}))

theorem closes_definitionQubits (scope : Scope) (p p' : Position) (name : String)
    (params : List String) : Closes (definitionQubits scope p name params)
      (definitionQubits scope p' name params) Eq definition := by
  refine Closes.next reads_names fun qubits => ?_
  cases firstRepeated? (params ++ qubits) with
  | some formal => exact .fail
  | none =>
    refine Closes.mono ?_ (le_plain_mul _)
    refine Closes.bind (closes_expect .leftBrace).reads fun _ _ _ => ?_
    have hdone (calls calls' : List GateCall) (h : calls = calls') :
        Waits (pure ⟨name, params, qubits, calls⟩ : Parser GateDefinition)
          (pure ⟨name, params, qubits, calls'⟩) Eq := .pure (by rw [h])
    exact (closes_body scope qubits).wait hdone

theorem closes_gateDefinition (scope : Scope) :
    Closes (gateDefinition scope) (gateDefinition scope) Eq definition := by
  refine closes_identifier_bind fun name p p' => ?_
  dsimp only
  split
  · exact .fail
  · have hrest := closes_definitionQubits scope p p' name
    refine Closes.next (reads_accept (singleton_mem_plain (by simp))) fun found => ?_
    cases found with
    | true =>
      have hparen : Reads (expect .rightParen) (expect .rightParen) Eq plain :=
        reads_expect (singleton_mem_plain (by simp))
      have behind (params : List String) := Closes.next hparen fun _ => hrest params
      refine Closes.bind_plain reads_get fun ts ts' hts => ?_
      rw [nextIs_congr hts]
      split
      · exact behind []
      · exact Closes.next reads_names behind
    | false => exact hrest []

/-! ## Statements -/

theorem closes_registerDeclaration (scope : Scope) (make : String → UInt32 → StatementKind) :
    Closes (registerDeclaration scope make) (registerDeclaration scope make) Eq clause := by
  refine closes_identifier_bind fun name p p' => ?_
  refine Closes.next (reads_expect (singleton_mem_plain (by simp))) fun _ => ?_
  refine Closes.next closes_integer.reads fun size => ?_
  refine Closes.next (reads_expect (singleton_mem_plain (by simp))) fun _ => ?_
  refine closes_semicolon.wait fun _ _ _ => ?_
  split
  · exact .fail
  · split
    · exact .fail
    · exact .pure rfl

theorem closes_measurement : Closes measurement measurement Eq clause := by
  refine Closes.next reads_operand fun qubit => ?_
  refine Closes.next (reads_expect (singleton_mem_plain (by simp))) fun _ => ?_
  refine Closes.next reads_operand fun clbit => ?_
  exact closes_semicolon.wait fun _ _ _ => .pure rfl

theorem closes_reset : Closes reset reset Eq clause := by
  refine Closes.next reads_operand fun target => ?_
  exact closes_semicolon.wait fun _ _ _ => .pure rfl

theorem closes_barrier : Closes barrier barrier Eq clause := by
  refine Closes.next (reads_list reads_operand) fun targets => ?_
  exact closes_semicolon.wait fun _ _ _ => .pure rfl

/-- The tokens of a whole statement. -/
def unit : Language Token := clause + definition

/-- A parser that goes on behind a first token. -/
theorem Parser.Closes.cons {p' q : Parser α} {q' : Parser α} {L : Language Token}
    (hq : Closes q q' Eq (Grammar.plain * L)) {t : Token} (ht : [t] ∈ Grammar.plain)
    (hp' : ∀ position rest, p' (⟨t, position⟩ :: rest) = q' rest) (position : Position)
    {ts rest : List Located} {a : α} (h : q ts = .ok (a, rest)) :
    ∃ used, ⟨t, position⟩ :: ts = used ++ rest ∧ used ≠ [] ∧
      used.map Located.token ∈ Grammar.plain * L ∧
        ∀ us, p'.Takes (used.map Located.token ++ us) (a = ·) us := by
  obtain ⟨used, rfl, -, ⟨u, hu, v, hv, huv⟩, htakes⟩ := hq ts a rest h
  refine ⟨⟨t, position⟩ :: used, rfl, List.cons_ne_nil _ _,
    ⟨t :: u, append_mem_plain ht hu, v, hv, ?_⟩, fun us located hlocated => ?_⟩
  · rw [List.map_cons, ← huv]
    rfl
  · obtain ⟨position', behind, rfl, hbehind⟩ := exists_of_map_eq_cons hlocated
    rw [hp']
    exact htakes us behind hbehind

theorem Parser.Closes.map_eq {p p' : Parser α} {L : Language Token} (h : Closes p p' Eq L)
    (g : α → β) : Closes (g <$> p) (g <$> p') Eq L :=
  h.wait fun a a' ha => .pure (by rw [ha])

/-- **A statement is read up to its last token**, whatever stands behind it. -/
theorem closes_statementKind (scope : Scope) :
    Closes (statementKind scope) (statementKind scope) Eq unit := by
  intro ts kind rest h
  have clauses {L : Language Token} (hle : L ≤ unit)
      (h : ∃ used, ts = used ++ rest ∧ used ≠ [] ∧ used.map Located.token ∈ L ∧
        ∀ us, (statementKind scope).Takes (used.map Located.token ++ us) (kind = ·) us) :
      ∃ used, ts = used ++ rest ∧ used ≠ [] ∧ used.map Located.token ∈ unit ∧
        ∀ us, (statementKind scope).Takes (used.map Located.token ++ us) (kind = ·) us := by
    obtain ⟨used, hsplit, hne, hused, htakes⟩ := h
    exact ⟨used, hsplit, hne, hle hused, htakes⟩
  have hclause : clause ≤ unit := fun u hu => .inl hu
  have hword {word : Keyword} : [.keyword word] ∈ plain := singleton_mem_plain (by simp)
  cases ts with
  | nil => cases h
  | cons t ts =>
    obtain ⟨t, p⟩ := t
    cases t with
    | keyword word =>
      cases word with
      | qreg =>
        exact clauses hclause
          ((closes_registerDeclaration scope .qreg).cons hword (fun _ _ => rfl) p h)
      | creg =>
        exact clauses hclause
          ((closes_registerDeclaration scope .creg).cons hword (fun _ _ => rfl) p h)
      | gate =>
        exact clauses (fun u hu => .inr hu)
          (((closes_gateDefinition scope).map_eq .gateDefinition).cons hword (fun _ _ => rfl) p h)
      | measure => exact clauses hclause (closes_measurement.cons hword (fun _ _ => rfl) p h)
      | reset => exact clauses hclause (closes_reset.cons hword (fun _ _ => rfl) p h)
      | barrier => exact clauses hclause (closes_barrier.cons hword (fun _ _ => rfl) p h)
      | _ => cases h
    | ident name =>
      obtain ⟨used, hsplit, hne, hused, htakes⟩ :=
        ((closes_call scope reads_operand).map_eq .call) _ kind rest h
      refine clauses hclause ⟨used, hsplit, hne, hused, fun us located hlocated => ?_⟩
      obtain ⟨t, used, rfl⟩ := List.exists_cons_of_ne_nil hne
      obtain ⟨rfl, -⟩ := List.cons.inj hsplit
      obtain ⟨position', behind, rfl, -⟩ := exists_of_map_eq_cons hlocated
      exact htakes us _ hlocated
    | _ => cases h

theorem closes_includedFile : Closes includedFile includedFile Eq clause := by
  intro ts u rest h
  cases ts with
  | nil => cases h
  | cons t ts =>
    obtain ⟨t, p⟩ := t
    cases t with
    | string => exact closes_semicolon.cons (singleton_mem_plain (by simp)) (fun _ _ => rfl) p h
    | _ => cases h

end FlatQasm.Grammar
