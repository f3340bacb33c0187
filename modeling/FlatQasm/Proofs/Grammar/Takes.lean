import FlatQasm.Grammar.Parser
import FlatQasm.Proofs.Outcome

/-!
# What a parser takes

A parser takes some tokens and leaves others when it does so wherever the tokens stand.  Positions
are left out, since they only show in errors; so the tokens alone say what a parser gives.

## Main definitions

* `Parser.Takes` — given some tokens, a parser gives a value with a property and leaves others.
* `Parser.Refuses` — given some tokens, a parser fails with an error with a property.

## Main statements

* `Parser.Takes.bind`, `Parser.Takes.refuses`, `Parser.Refuses.bind` — two parsers in a row.
* `takes_commaSeparated` — a list with commas between its elements.
-/

namespace FlatQasm.Grammar

variable {α β γ : Type}

/-- Given the tokens `ts`, a parser gives a value with a property and leaves the tokens `us`. -/
def Parser.Takes (p : Parser α) (ts : List Token) (property : α → Prop) (us : List Token) : Prop :=
  ∀ located : List Located, located.map Located.token = ts →
    ∃ a rest, p located = .ok (a, rest) ∧ property a ∧ rest.map Located.token = us

namespace Parser.Takes

variable {p : Parser α} {f : α → Parser β} {P : α → Prop} {Q : β → Prop} {ts us vs : List Token}

theorem pure {a : α} (h : P a) : Takes (pure a) ts P ts :=
  fun located hts => ⟨a, located, rfl, h, hts⟩

theorem mono (hp : p.Takes ts P us) {P' : α → Prop} (h : ∀ a, P a → P' a) : p.Takes ts P' us := by
  intro located hts
  obtain ⟨a, rest, ha, hP, hus⟩ := hp located hts
  exact ⟨a, rest, ha, h a hP, hus⟩

/-- The second parser takes what the first one leaves. -/
theorem bind (hp : p.Takes ts P us) (hf : ∀ a, P a → (f a).Takes us Q vs) :
    Takes (p >>= f) ts Q vs := by
  intro located hts
  obtain ⟨a, between, ha, hP, hus⟩ := hp located hts
  obtain ⟨b, rest, hb, hQ, hvs⟩ := hf a hP between hus
  exact ⟨b, rest, bind_eq_ok.2 ⟨⟨a, between⟩, ha, hb⟩, hQ, hvs⟩

/-- Where the first parser gives a known value. -/
theorem step {a : α} (hp : p.Takes ts (· = a) us) (hf : (f a).Takes us Q vs) :
    Takes (p >>= f) ts Q vs := by
  refine hp.bind fun a' ha' => ?_
  subst ha'
  exact hf

theorem map {g : α → β} (hp : p.Takes ts (fun a => Q (g a)) us) : Takes (g <$> p) ts Q us := by
  intro located hts
  obtain ⟨a, rest, ha, hQ, hus⟩ := hp located hts
  exact ⟨g a, rest, bind_eq_ok.2 ⟨⟨a, rest⟩, ha, rfl⟩, hQ, hus⟩

/-- Looking at the tokens takes none. -/
theorem get : Takes (MonadState.get : Parser (List Located)) ts
    (fun located => located.map Located.token = ts) ts :=
  fun located hts => ⟨located, located, rfl, hts, hts⟩

end Parser.Takes

/-- Given the tokens `ts`, a parser fails with an error with a property. -/
def Parser.Refuses (p : Parser α) (ts : List Token) (property : ImportError → Prop) : Prop :=
  ∀ located : List Located, located.map Located.token = ts →
    ∃ e, p located = .error e ∧ property e

section Refuses

variable {p : Parser α} {f : α → Parser β} {P : α → Prop} {E : ImportError → Prop}
  {ts us : List Token}

theorem Parser.Refuses.bind (hp : p.Refuses ts E) : Refuses (p >>= f) ts E := by
  intro located hts
  obtain ⟨e, he, hE⟩ := hp located hts
  exact ⟨e, bind_eq_error.2 (.inl he), hE⟩

/-- The second parser fails on what the first one leaves. -/
theorem Parser.Takes.refuses (hp : p.Takes ts P us) (hf : ∀ a, P a → (f a).Refuses us E) :
    Refuses (p >>= f) ts E := by
  intro located hts
  obtain ⟨a, between, ha, hP, hus⟩ := hp located hts
  obtain ⟨e, he, hE⟩ := hf a hP between hus
  exact ⟨e, bind_eq_error.2 (.inr ⟨⟨a, between⟩, ha, he⟩), hE⟩

/-- Where the first parser gives a known value. -/
theorem Parser.Takes.step_refuses {a : α} (hp : p.Takes ts (· = a) us)
    (hf : (f a).Refuses us E) : Refuses (p >>= f) ts E := by
  refine hp.refuses fun a' ha' => ?_
  subst ha'
  exact hf

end Refuses

open FlatQasm.Grammar.Parser (Takes)

/-! ## Single tokens -/

section Tokens

variable {sign : Punct} {t : Token} {us : List Token}

theorem exists_of_map_eq_cons {located : List Located}
    (h : located.map Located.token = t :: us) :
    ∃ p rest, located = ⟨t, p⟩ :: rest ∧ rest.map Located.token = us := by
  obtain ⟨⟨t', p⟩, rest, rfl, rfl, hrest⟩ := List.map_eq_cons_iff.1 h
  exact ⟨p, rest, rfl, hrest⟩

theorem nextIs_eq_false (ht : t ≠ .punct sign) (p : Position) (rest : List Located) :
    nextIs sign (⟨t, p⟩ :: rest) = false := by
  cases t with
  | punct found =>
    rw [nextIs, decide_eq_false_iff_not]
    rintro rfl
    exact ht rfl
  | _ => rfl

theorem takes_expect : (expect sign).Takes (.punct sign :: us) (· = ()) us := by
  intro located hts
  obtain ⟨p, rest, rfl, hrest⟩ := exists_of_map_eq_cons hts
  exact ⟨(), rest, expect_punct sign p rest, rfl, hrest⟩

theorem takes_accept : (accept sign).Takes (.punct sign :: us) (· = true) us := by
  intro located hts
  obtain ⟨p, rest, rfl, hrest⟩ := exists_of_map_eq_cons hts
  exact ⟨true, rest, accept_punct sign p rest, rfl, hrest⟩

theorem takes_accept_of_ne (ht : t ≠ .punct sign) :
    (accept sign).Takes (t :: us) (· = false) (t :: us) := by
  intro located hts
  obtain ⟨p, rest, rfl, hrest⟩ := exists_of_map_eq_cons hts
  exact ⟨false, ⟨t, p⟩ :: rest, by simp [accept, nextIs_eq_false ht], rfl, hts⟩

theorem takes_identifier {name : String} :
    identifier.Takes (.ident name :: us) (fun found => found.1 = name) us := by
  intro located hts
  obtain ⟨p, rest, rfl, hrest⟩ := exists_of_map_eq_cons hts
  exact ⟨(name, p), rest, identifier_ident p rest name, rfl, hrest⟩

theorem takes_integer {value : UInt64} :
    integer.Takes (.int (.word value) :: us) (· = value) us := by
  intro located hts
  obtain ⟨p, rest, rfl, hrest⟩ := exists_of_map_eq_cons hts
  exact ⟨value, rest, integer_word p rest value, rfl, hrest⟩

end Tokens

/-! ## Lists -/

section Lists

/-- Behind an element stands a comma or what stands behind the list. -/
theorem exists_next (pieces : β → List Token) (end_ : Token) (us : List Token) (xs : List β) :
    ∃ t vs,
    xs.flatMap (fun x => .punct .comma :: pieces x) ++ end_ :: us = t :: vs ∧
      (t = .punct .comma ∨ t = end_) := by
  cases xs with
  | nil => exact ⟨end_, us, rfl, .inr rfl⟩
  | cons x xs =>
    rw [List.flatMap_cons, List.append_assoc, List.cons_append]
    exact ⟨.punct .comma, _, rfl, .inl rfl⟩

/-- Pieces that are not empty are no more than their elements. -/
theorem length_le_flatMap {pieces : β → List Token} {xs : List β} (h : ∀ x ∈ xs, pieces x ≠ []) :
    xs.length ≤ (xs.flatMap pieces).length := by
  induction xs with
  | nil => exact Nat.le_refl 0
  | cons x xs ih =>
    rw [List.forall_mem_cons] at h
    have hpos := List.length_pos_iff.2 h.1
    have hrest := ih h.2
    rw [List.flatMap_cons, List.length_cons, List.length_append]
    omega

variable {element : Parser α} {pieces : β → List Token} {r : β → α → Prop} {end_ : Token}
  {us : List Token} {xs : List β}

/-- Each element takes a comma, so that a bound by the tokens is never used up. -/
theorem takes_afterCommas (hend : end_ ≠ .punct .comma)
    (helement : ∀ x ∈ xs, ∀ t vs, t = .punct .comma ∨ t = end_ →
      element.Takes (pieces x ++ t :: vs) (r x) (t :: vs))
    {bound : List Located} (hbound : xs.length ≤ bound.length) :
    (afterCommas element bound).Takes
      (xs.flatMap (fun x => .punct .comma :: pieces x) ++ end_ :: us) (List.Forall₂ r xs)
      (end_ :: us) := by
  induction bound generalizing xs with
  | nil =>
    have hxs : xs = [] := List.length_eq_zero_iff.1 (Nat.le_zero.1 hbound)
    subst hxs
    exact .pure .nil
  | cons _ bound ih =>
    rw [afterCommas]
    cases xs with
    | nil => exact (takes_accept_of_ne hend).step (.pure .nil)
    | cons x xs =>
      have hrest := ih (fun y hy => helement y (List.mem_cons_of_mem x hy))
        (Nat.le_of_succ_le_succ hbound)
      obtain ⟨t, vs, hnext, ht⟩ := exists_next pieces end_ us xs
      rw [hnext] at hrest
      rw [List.flatMap_cons, List.append_assoc, List.cons_append, hnext]
      refine takes_accept.step ?_
      refine (helement x List.mem_cons_self t vs ht).bind fun a ha => ?_
      exact hrest.bind fun list hlist => .pure (.cons ha hlist)

theorem intercalate_cons (t : Token) (piece : List Token) (others : List (List Token)) :
    [t].intercalate (piece :: others) = piece ++ others.flatMap (t :: ·) := by
  induction others generalizing piece with
  | nil => simp
  | cons next others ih => simp [List.intercalate_cons_cons, ih]

/-- **A list with commas between its elements is taken up to what stands behind it.** -/
theorem takes_commaSeparated (hxs : xs ≠ []) (hend : end_ ≠ .punct .comma)
    (helement : ∀ x ∈ xs, ∀ t vs, t = .punct .comma ∨ t = end_ →
      element.Takes (pieces x ++ t :: vs) (r x) (t :: vs)) :
    (commaSeparated element).Takes
      ([Token.punct .comma].intercalate (xs.map pieces) ++ end_ :: us) (List.Forall₂ r xs)
      (end_ :: us) := by
  obtain ⟨x, xs, rfl⟩ := List.exists_cons_of_ne_nil hxs
  obtain ⟨t, vs, hnext, ht⟩ := exists_next pieces end_ us xs
  rw [List.map_cons, intercalate_cons, List.append_assoc, List.flatMap_map, hnext]
  refine (helement x List.mem_cons_self t vs ht).bind fun a ha => ?_
  refine Takes.get.bind fun bound hbound => ?_
  have hlength : xs.length ≤ bound.length := by
    rw [← List.length_map Located.token, hbound, ← hnext, List.length_append]
    exact Nat.le_add_right_of_le (length_le_flatMap fun y _ => List.cons_ne_nil _ _)
  rw [← hnext]
  refine (takes_afterCommas hend ?_ hlength).bind fun list hlist => .pure (.cons ha hlist)
  exact fun y hy => helement y (List.mem_cons_of_mem x hy)

end Lists

end FlatQasm.Grammar
