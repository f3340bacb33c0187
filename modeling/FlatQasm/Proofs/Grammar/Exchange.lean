import FlatQasm.Proofs.Grammar.TopLevel

/-!
# Another argument in its place

Whether an argument of a gate may start is known from the last tokens: it does so behind a comma,
and behind a parenthesis that follows a name.  So the place of an argument is found by a walk over
the tokens, without reading them.

When another argument is put in the place of `pi`, a parser reads the same as before up to that
place.  If the other argument is within the nesting limit, the parser reads it and then goes on as
before.  Otherwise it stops with the error that something is nested too deep.  This is a judgement
on parsers, which holds of two of them in a row when it holds of both.

## Main definitions

* `Place` — where a walk over the tokens is.
* `Argument` — tokens that stand for an angle in which nothing is divided by zero.
* `Exchanged` — tokens, and the same ones with another argument.
* `Kept`, `Parser.Keeps` — a second run succeeds like the first one, or is refused for its depth.

## Main statements

* `exchanged_append` — the place of an argument is found by a walk over the tokens in front of it.
* `Derives.untouched` — no argument of a gate starts inside an angle.
* `Parser.Keeps.bind` — two parsers in a row.
* `keeps_commaSeparated` — a list with commas between its elements.
-/

namespace FlatQasm.Grammar

variable {α α' β β' : Type}

/-! ## Places -/

/-- What the tokens in front say about the next one. -/
inductive Place where
  /-- It stands behind a name. -/
  | name
  /-- It may start an argument. -/
  | argument
  /-- Nothing. -/
  | other

/-- The place behind one more token. -/
def Place.next (place : Place) : Token → Place
  | .punct .comma => .argument
  | .punct .leftParen =>
    match place with
    | .name => .argument
    | _ => .other
  | .ident _ => .name
  | _ => .other

/-- Only behind a name, more is known than at any other place. -/
theorem Place.next_cases (place : Place) (t : Token) :
    place.next t = next .other t ∨ next .other t = .other := by
  cases t with
  | punct sign =>
    cases sign with
    | leftParen => exact .inr rfl
    | _ => exact .inl rfl
  | _ => exact .inl rfl

@[simp] theorem Place.next_operator (place : Place) (op : ArithOp) :
    place.next (.punct op.punct) = .other := by
  cases op <;> rfl

/-- An argument starts behind two signs only. -/
theorem Place.next_ne {t : Token} (ht : t ≠ .punct .comma ∧ t ≠ .punct .leftParen)
    (place : Place) : place.next t ≠ .argument := by
  cases t with
  | punct sign =>
    cases sign with
    | comma => exact absurd rfl ht.1
    | leftParen => exact absurd rfl ht.2
    | _ => simp [next]
  | _ => simp [next]

/-- In front of an argument stands a comma, or a parenthesis behind a name. -/
def OpensArgument (us : List Token) : Prop :=
  (∃ front, us = front ++ [.punct .comma]) ∨
    ∃ front name, us = front ++ [.ident name, .punct .leftParen]

theorem OpensArgument.foldl_next {us : List Token} (h : OpensArgument us) (place : Place) :
    us.foldl Place.next place = .argument := by
  rcases h with ⟨front, rfl⟩ | ⟨front, name, rfl⟩ <;> rw [List.foldl_append] <;> rfl

/-- Behind an argument stands a comma or the closing parenthesis. -/
def EndsArgument (us : List Token) : Prop :=
  us.head? = some (.punct .comma) ∨ us.head? = some (.punct .rightParen)

theorem EndsArgument.head?_ne_operator {us : List Token} (h : EndsArgument us) (op : ArithOp) :
    us.head? ≠ some (.punct op.punct) := by
  rcases h with h | h <;> rw [h] <;> cases op <;> simp [ArithOp.punct]

/-- Tokens that are derived with an angle in which no divisor folds to zero. -/
structure Argument (arg : List Token) (e : Angle) (opened : Nat) : Prop where
  derives : Derives .expr arg e opened
  divisors : ∀ x y, (x, y) ∈ e.quotients → ¬ y.FoldsToZero

/-! ## Exchanged tokens -/

/-- Tokens behind a place, and the same ones with `arg` instead of one of the arguments.  An
argument that is `within` the limit may have been passed already. -/
inductive Exchanged (arg : List Token) (within : Prop) :
    Place → List Token → List Token → Prop where
  | passed {place : Place} {us : List Token} (h : within) : Exchanged arg within place us us
  | here {us : List Token} (h : EndsArgument us) :
      Exchanged arg within .argument (.keyword .pi :: us) (arg ++ us)
  | cons {place : Place} {t : Token} {us vs : List Token}
      (h : Exchanged arg within (place.next t) us vs) :
      Exchanged arg within place (t :: us) (t :: vs)

section Exchanged

variable {arg : List Token} {within : Prop} {place : Place} {t : Token} {u us vs : List Token}
  {e : Angle} {c : Category} {n : Nat}

/-- The place is found by a walk over the tokens in front. -/
theorem exchanged_append {before after : List Token}
    (hplace : before.foldl Place.next place = .argument) (hafter : EndsArgument after) :
    Exchanged arg within place (before ++ .keyword .pi :: after) (before ++ arg ++ after) := by
  induction before generalizing place with
  | nil =>
    obtain rfl : place = .argument := hplace
    exact .here hafter
  | cons t before ih => exact .cons (ih hplace)

/-- Where nothing is known, the argument is further behind. -/
theorem Exchanged.of_other (h : Exchanged arg within .other us vs) (place : Place) :
    Exchanged arg within place us vs := by
  generalize hstart : Place.other = start at h
  induction h generalizing place with
  | passed h => exact .passed h
  | here => cases hstart
  | @cons _ t _ _ h ih =>
    subst hstart
    rcases place.next_cases t with hnext | hnext
    · exact .cons (hnext ▸ h)
    · exact .cons (ih _ hnext.symm)

/-- The argument is the next one, or further behind. -/
theorem Exchanged.argument_cases (h : Exchanged arg within .argument us vs) :
    Exchanged arg within .other us vs ∨
      ∃ after, EndsArgument after ∧ us = .keyword .pi :: after ∧ vs = arg ++ after := by
  cases h with
  | passed h => exact .inl (.passed h)
  | here h => exact .inr ⟨_, h, rfl, rfl⟩
  | @cons _ t _ _ h =>
    have hnext : Place.next .argument t = Place.next .other t := by
      cases t with
      | punct sign => cases sign <;> rfl
      | _ => rfl
    exact .inl (.cons (hnext ▸ h))

/-- One more token is read where the argument does not start. -/
theorem Exchanged.uncons (h : Exchanged arg within place (t :: us) vs)
    (ht : place = .argument → t ≠ .keyword .pi) :
    ∃ vs', vs = t :: vs' ∧ Exchanged arg within (place.next t) us vs' := by
  cases h with
  | passed h => exact ⟨us, rfl, .passed h⟩
  | here => exact absurd rfl (ht rfl)
  | cons h => exact ⟨_, rfl, h⟩

theorem Exchanged.head?_eq (h : Exchanged arg within place us vs) (hplace : place ≠ .argument) :
    vs.head? = us.head? := by
  cases h with
  | passed => rfl
  | here => exact absurd rfl hplace
  | cons => rfl

/-- Nothing is left of the tokens only when the argument was passed. -/
theorem Exchanged.of_nil (h : Exchanged arg within place [] vs) : within := by
  cases h with
  | passed h => exact h

/-- Behind a name, at least as much is known as where no argument starts. -/
theorem Exchanged.to_name (h : Exchanged arg within place us vs) (hplace : place ≠ .argument) :
    Exchanged arg within .name us vs := by
  cases place with
  | name => exact h
  | argument => exact absurd rfl hplace
  | other => exact h.of_other .name

/-- Tokens in which no argument of a gate starts are the same in both. -/
def Untouched (arg : List Token) (within : Prop) (u : List Token) : Prop :=
  ∀ us vs, Exchanged arg within .other (u ++ us) vs →
    ∃ vs', vs = u ++ vs' ∧ Exchanged arg within .name us vs'

theorem untouched_singleton (ht : t ≠ .punct .comma ∧ t ≠ .punct .leftParen) :
    Untouched arg within [t] := by
  intro us vs h
  obtain ⟨vs', rfl, hus⟩ := h.uncons (by simp)
  exact ⟨vs', rfl, hus.to_name (Place.next_ne ht .other)⟩

theorem Untouched.operation {v : List Token} (hu : Untouched arg within u)
    (hv : Untouched arg within v) (op : ArithOp) :
    Untouched arg within (u ++ .punct op.punct :: v) := by
  intro us vs h
  rw [List.append_assoc] at h
  obtain ⟨_, rfl, hop⟩ := hu _ _ h
  obtain ⟨_, rfl, hbehind⟩ := hop.uncons (by simp)
  rw [Place.next_operator] at hbehind
  obtain ⟨vs', rfl, hus⟩ := hv _ _ hbehind
  exact ⟨vs', by simp, hus⟩

/-- **No argument of a gate starts inside an angle.** -/
theorem Derives.untouched (h : Derives c u e n) : Untouched arg within u := by
  induction h with
  | sum _ _ _ ihleft ihright => exact ihleft.operation ihright _
  | expr _ ih => exact ih
  | product _ _ _ ihleft ihright => exact ihleft.operation ihright _
  | term _ ih => exact ih
  | minus _ ih =>
    intro us vs h
    obtain ⟨_, rfl, hbehind⟩ := Exchanged.uncons h (by simp)
    obtain ⟨vs', rfl, hus⟩ := ih _ _ hbehind
    exact ⟨vs', rfl, hus⟩
  | unary _ ih => exact ih
  | parentheses _ ih =>
    intro us vs h
    rw [List.cons_append, List.append_assoc] at h
    obtain ⟨_, rfl, hinside⟩ := h.uncons (by simp)
    obtain ⟨_, rfl, hclose⟩ := ih _ _ hinside
    obtain ⟨vs', rfl, hus⟩ := hclose.uncons (by simp)
    exact ⟨vs', by simp, hus.of_other .name⟩
  | _ => exact untouched_singleton (by simp)

/-- An angle does not start with a closing parenthesis. -/
theorem Derives.head?_ne (h : Derives c u e n) (us : List Token) :
    (u ++ us).head? ≠ some (.punct .rightParen) := by
  induction h generalizing us with
  | sum _ _ _ ihleft _ => exact List.append_assoc _ _ us ▸ ihleft _
  | expr _ ih => exact ih us
  | product _ _ _ ihleft _ => exact List.append_assoc _ _ us ▸ ihleft _
  | term _ ih => exact ih us
  | unary _ ih => exact ih us
  | _ => simp

end Exchanged

/-! ## Two runs -/

/-- Located tokens behind a place, one of whose arguments is exchanged. -/
def At (arg : List Token) (within : Prop) (place : Place) (ts ts' : List Located) : Prop :=
  Exchanged arg within place (ts.map Located.token) (ts'.map Located.token)

/-- When a first run succeeds, so does the second one, with a related value and with related tokens
left; or the second one is refused, because the argument is not within the limit. -/
def Kept (arg : List Token) (within : Prop) (R : α → α' → Prop)
    (x : Except ImportError (α × List Located)) (y : Except ImportError (α' × List Located)) :
    Prop :=
  ∀ a rest, x = .ok (a, rest) →
    (∃ a' rest', y = .ok (a', rest') ∧ R a a' ∧ At arg within .name rest rest') ∨
      ¬ within ∧ TooDeep y

/-- Parsers that run on exchanged tokens. -/
def Parser.Keeps (arg : List Token) (within : Prop) (place : Place) (p : Parser α) (p' : Parser α')
    (R : α → α' → Prop) : Prop :=
  ∀ ts ts', At arg within place ts ts' → Kept arg within R (p ts) (p' ts')

variable {arg : List Token} {within : Prop} {place : Place}

section Tokens

variable {t : Token} {p : Position} {ts ts' : List Located}

theorem At.uncons (h : At arg within place (⟨t, p⟩ :: ts) ts')
    (ht : place = .argument → t ≠ .keyword .pi) :
    ∃ p' rest, ts' = ⟨t, p'⟩ :: rest ∧ At arg within (place.next t) ts rest := by
  obtain ⟨us, hus, hrest⟩ := Exchanged.uncons h ht
  obtain ⟨p', rest, rfl, rfl⟩ := exists_of_map_eq_cons hus
  exact ⟨p', rest, rfl, hrest⟩

theorem At.to_name (h : At arg within place ts ts') (hplace : place ≠ .argument) :
    At arg within .name ts ts' := Exchanged.to_name h hplace

/-- Behind a token that is no part of an argument list, no argument starts. -/
theorem At.behind (h : At arg within place (⟨t, p⟩ :: ts) ts')
    (hpi : t ≠ .keyword .pi) (ht : t ≠ .punct .comma ∧ t ≠ .punct .leftParen) :
    ∃ p' rest, ts' = ⟨t, p'⟩ :: rest ∧ At arg within .name ts rest := by
  obtain ⟨p', rest, rfl, hrest⟩ := h.uncons fun _ => hpi
  exact ⟨p', rest, rfl, hrest.to_name (Place.next_ne ht place)⟩

theorem At.nil (h : At arg within .name [] ts') : ts' = [] := by
  have hhead := Exchanged.head?_eq h (by simp)
  simpa using hhead

/-- The same token is next in both, or in none of them. -/
theorem At.head_cases (h : At arg within .name ts ts') (t : Token) :
    (∃ q rest q' rest', ts = ⟨t, q⟩ :: rest ∧ ts' = ⟨t, q'⟩ :: rest' ∧
        At arg within (Place.next .name t) rest rest') ∨
      (ts.map Located.token).head? ≠ some t ∧ (ts'.map Located.token).head? ≠ some t := by
  by_cases hhead : (ts.map Located.token).head? = some t
  · obtain ⟨us, hus⟩ := List.head?_eq_some_iff.1 hhead
    obtain ⟨q, rest, rfl, -⟩ := exists_of_map_eq_cons hus
    obtain ⟨q', rest', rfl, hrest⟩ := h.uncons (by simp)
    exact .inl ⟨q, rest, q', rest', rfl, rfl, hrest⟩
  · refine .inr ⟨hhead, ?_⟩
    rwa [Exchanged.head?_eq h (by simp)]

end Tokens

section Laws

variable {p : Parser α} {p' : Parser α'} {f : α → Parser β} {f' : α' → Parser β'}
  {R : α → α' → Prop} {S : β → β' → Prop}

theorem Kept.bind {x : Except ImportError (α × List Located)}
    {y : Except ImportError (α' × List Located)} (h : Kept arg within R x y)
    {f : α × List Located → Except ImportError (β × List Located)}
    {g : α' × List Located → Except ImportError (β' × List Located)}
    (hfg : ∀ a a' rest rest', x = .ok (a, rest) → y = .ok (a', rest') → R a a' →
      At arg within .name rest rest' → Kept arg within S (f (a, rest)) (g (a', rest'))) :
    Kept arg within S (x >>= f) (y >>= g) := by
  intro b rest hb
  obtain ⟨⟨a, between⟩, hx, hb⟩ := bind_eq_ok.1 hb
  rcases h a between hx with ⟨a', between', hy, hR, hbetween⟩ | ⟨beyond, deep⟩
  · have hrest := hfg a a' between between' hx hy hR hbetween b rest hb
    subst hy
    exact hrest
  · exact .inr ⟨beyond, deep.bind g⟩

theorem Kept.error {e : ImportError} {y : Except ImportError (α' × List Located)} :
    Kept arg within R (.error e) y := by
  intro a rest h
  cases h

theorem Parser.Keeps.pure {a : α} {a' : α'} (h : R a a') :
    Parser.Keeps arg within .name (pure a) (pure a') R := by
  intro ts ts' hts b rest hb
  cases hb
  exact .inl ⟨a', ts', rfl, h, hts⟩

theorem Parser.Keeps.fail {e : ImportError} :
    Parser.Keeps arg within place (fail e : Parser α) p' R := fun _ _ _ => .error

/-- **Two parsers in a row.** -/
theorem Parser.Keeps.bind (hp : Parser.Keeps arg within place p p' R)
    (hf : ∀ a a', R a a' → Parser.Keeps arg within .name (f a) (f' a') S) :
    Parser.Keeps arg within place (p >>= f) (p' >>= f') S :=
  fun ts ts' hts => (hp ts ts' hts).bind fun a a' rest rest' _ _ hR hrest =>
    hf a a' hR rest rest' hrest

/-- Where the first parsers give the same value. -/
theorem Parser.Keeps.next {p' : Parser α} {f' : α → Parser β'}
    (hp : Parser.Keeps arg within place p p' Eq)
    (hf : ∀ a, Parser.Keeps arg within .name (f a) (f' a) S) :
    Parser.Keeps arg within place (p >>= f) (p' >>= f') S :=
  hp.bind fun a _ h => h ▸ hf a

theorem Parser.Keeps.mono {R' : α → α' → Prop} (hp : Parser.Keeps arg within place p p' R)
    (h : ∀ a a', R a a' → R' a a') : Parser.Keeps arg within place p p' R' := by
  intro ts ts' hts a rest ha
  refine (hp ts ts' hts a rest ha).imp_left ?_
  rintro ⟨a', rest', ha', hR, hrest⟩
  exact ⟨a', rest', ha', h a a' hR, hrest⟩

theorem Parser.Keeps.map {g : α → β} {g' : α' → β'} (hp : Parser.Keeps arg within place p p' R)
    (hg : ∀ a a', R a a' → S (g a) (g' a')) :
    Parser.Keeps arg within place (g <$> p) (g' <$> p') S :=
  hp.bind fun a a' h => .pure (hg a a' h)

/-- The tokens are looked at. -/
theorem Parser.Keeps.get_bind {f : List Located → Parser β} {f' : List Located → Parser β'}
    (h : ∀ ts ts', At arg within place ts ts' → Kept arg within S (f ts ts) (f' ts' ts')) :
    Parser.Keeps arg within place (MonadState.get >>= f) (MonadState.get >>= f') S := h

end Laws

/-! ## Single tokens -/

theorem keeps_identifier :
    Parser.Keeps arg within place identifier identifier (fun x x' => x'.1 = x.1) := by
  intro ts ts' hts x rest h
  cases ts with
  | nil => cases h
  | cons t ts =>
    obtain ⟨t, q⟩ := t
    cases t with
    | ident name =>
      cases h
      obtain ⟨q', rest', rfl, hrest⟩ := hts.behind (by simp) (by simp)
      exact .inl ⟨(name, q'), rest', rfl, rfl, hrest⟩
    | _ => cases h

/-- Behind a name, its position may be another one. -/
theorem keeps_identifier_bind {f : String × Position → Parser β}
    {f' : String × Position → Parser β'} {S : β → β' → Prop}
    (hf : ∀ name q q', Parser.Keeps arg within .name (f (name, q)) (f' (name, q')) S) :
    Parser.Keeps arg within place (identifier >>= f) (identifier >>= f') S := by
  refine keeps_identifier.bind fun x x' hx => ?_
  obtain ⟨name, q⟩ := x
  obtain ⟨name', q'⟩ := x'
  obtain rfl : name' = name := hx
  exact hf name' q q'

theorem keeps_integer : Parser.Keeps arg within place integer integer Eq := by
  intro ts ts' hts x rest h
  cases ts with
  | nil => cases h
  | cons t ts =>
    obtain ⟨t, q⟩ := t
    cases t with
    | int literal =>
      cases literal with
      | word value =>
        cases h
        obtain ⟨q', rest', rfl, hrest⟩ := hts.behind (by simp) (by simp)
        exact .inl ⟨_, rest', rfl, rfl, hrest⟩
      | wide => cases h
    | _ => cases h

theorem keeps_expect {sign : Punct} (hsign : sign ≠ .comma ∧ sign ≠ .leftParen) :
    Parser.Keeps arg within place (expect sign) (expect sign) Eq := by
  intro ts ts' hts x rest h
  obtain ⟨q, rfl⟩ := expect_eq_ok h
  obtain ⟨q', rest', rfl, hrest⟩ := hts.behind (by simp) (by simpa using hsign)
  exact .inl ⟨(), rest', expect_punct sign q' rest', rfl, hrest⟩

theorem accept_bind_found {sign : Punct} (f : Bool → Parser β) (q : Position) (ts : List Located) :
    (accept sign >>= f) (⟨.punct sign, q⟩ :: ts) = f true ts := by
  change (accept sign _ >>= _) = _
  rw [accept_punct, ok_bind]

theorem accept_bind_other {sign : Punct} {ts : List Located}
    (h : (ts.map Located.token).head? ≠ some (.punct sign)) (f : Bool → Parser β) :
    (accept sign >>= f) ts = f false ts := by
  have haccept : accept sign ts = .ok (false, ts) := if_neg fun hnext => h (nextIs_iff.1 hnext)
  change (accept sign _ >>= _) = _
  rw [haccept, ok_bind]

/-- Behind a name, an argument may start if a parenthesis was found. -/
theorem keeps_accept_bind {sign : Punct} {f : Bool → Parser β} {f' : Bool → Parser β'}
    {S : β → β' → Prop}
    (hfound : Parser.Keeps arg within (Place.next .name (.punct sign)) (f true) (f' true) S)
    (hother : Parser.Keeps arg within .name (f false) (f' false) S) :
    Parser.Keeps arg within .name (accept sign >>= f) (accept sign >>= f') S := by
  intro ts ts' hts
  rcases hts.head_cases (.punct sign) with
    ⟨q, rest, q', rest', rfl, rfl, hrest⟩ | ⟨hhead, hhead'⟩
  · rw [accept_bind_found, accept_bind_found]
    exact hfound rest rest' hrest
  · rw [accept_bind_other hhead, accept_bind_other hhead']
    exact hother ts ts' hts

/-! ## Lists -/

section Lists

variable {element : Parser α} {R : α → α → Prop}

/-- No element comes behind tokens that do not start with a comma. -/
theorem afterCommas_of_head {ts : List Located}
    (h : (ts.map Located.token).head? ≠ some (.punct .comma)) (bound : List Located) :
    afterCommas element bound ts = .ok ([], ts) := by
  cases bound with
  | nil => rfl
  | cons => exact accept_bind_other h _

/-- Both runs have a bound of their own, by the tokens that they were given. -/
theorem keeps_afterCommas (helement : Parser.Keeps arg within .argument element element R)
    (hshort : ∀ ts x rest, element ts = .ok (x, rest) → rest.length ≤ ts.length)
    {bound bound' ts ts' : List Located} (hbound : ts.length ≤ bound.length)
    (hbound' : ts'.length ≤ bound'.length) (hts : At arg within .name ts ts') :
    Kept arg within (List.Forall₂ R) (afterCommas element bound ts)
      (afterCommas element bound' ts') := by
  induction bound generalizing ts bound' ts' with
  | nil =>
    obtain rfl : ts = [] := List.length_eq_zero_iff.1 (Nat.le_zero.1 hbound)
    obtain rfl := hts.nil
    rw [afterCommas_of_head (by simp), afterCommas_of_head (by simp)]
    exact Parser.Keeps.pure .nil [] [] hts
  | cons b bound ih =>
    rcases hts.head_cases (.punct .comma) with
      ⟨q, behind, q', behind', rfl, rfl, hbehind⟩ | ⟨hhead, hhead'⟩
    · obtain ⟨b', bound', rfl, hbound'⟩ := exists_cons_of_succ_le hbound'
      rw [afterCommas, afterCommas, accept_bind_found, accept_bind_found]
      refine (helement behind behind' hbehind).bind fun x x' between between' hx hx' hR hts => ?_
      have hlength := hshort _ _ _ hx
      have hlength' := hshort _ _ _ hx'
      have hbound : behind.length ≤ bound.length := Nat.le_of_succ_le_succ hbound
      refine (ih (by omega) (by omega) hts).bind fun xs xs' rest rest' _ _ hxs hrest => ?_
      exact Parser.Keeps.pure (.cons hR hxs) rest rest' hrest
    · rw [afterCommas_of_head hhead, afterCommas_of_head hhead']
      exact Parser.Keeps.pure .nil ts ts' hts

theorem keeps_commaSeparated (hfirst : Parser.Keeps arg within place element element R)
    (helement : Parser.Keeps arg within .argument element element R)
    (hshort : ∀ ts x rest, element ts = .ok (x, rest) → rest.length ≤ ts.length) :
    Parser.Keeps arg within place (commaSeparated element) (commaSeparated element)
      (List.Forall₂ R) := by
  refine hfirst.bind fun x x' hx => Parser.Keeps.get_bind fun ts ts' hts => ?_
  refine (keeps_afterCommas helement hshort (Nat.le_refl _) (Nat.le_refl _) hts).bind
    fun xs xs' rest rest' _ _ hxs hrest => ?_
  exact Parser.Keeps.pure (.cons hx hxs) rest rest' hrest

end Lists

end FlatQasm.Grammar
