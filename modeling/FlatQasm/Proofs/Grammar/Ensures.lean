import FlatQasm.Grammar.Parser
import FlatQasm.Proofs.Outcome

/-!
# What a parser ensures

A parser ensures a property when every value that it gives has it, whatever the tokens are.  A
chain of parsers ensures what its last one does, knowing what those before it ensure; so a check on
the way is a property of what comes out.

## Main definitions

* `Parser.Ensures` — every value that a parser gives has a property.

## Main statements

* `Parser.Ensures.bind` — two parsers in a row.
* `ensures_commaSeparated` — a list with commas between its elements.
-/

namespace FlatQasm.Grammar

variable {α β : Type}

/-- Every value that a parser gives has a property. -/
def Parser.Ensures (p : Parser α) (property : α → Prop) : Prop :=
  ∀ ts a rest, p ts = .ok (a, rest) → property a

namespace Parser.Ensures

variable {p : Parser α} {f : α → Parser β} {P : α → Prop} {Q : β → Prop}

theorem trivial : p.Ensures fun _ => True := fun _ _ _ _ => .intro

theorem mono (hp : p.Ensures P) {P' : α → Prop} (h : ∀ a, P a → P' a) : p.Ensures P' :=
  fun ts a rest hts => h a (hp ts a rest hts)

theorem pure {a : α} (h : P a) : Ensures (pure a) P := by
  intro ts b rest hb
  cases hb
  exact h

/-- The second parser may rely on what the first one ensures. -/
theorem bind (hp : p.Ensures P) (hf : ∀ a, P a → (f a).Ensures Q) : Ensures (p >>= f) Q := by
  intro ts b rest h
  obtain ⟨⟨a, between⟩, ha, hb⟩ := bind_eq_ok.1 h
  exact hf a (hp ts a between ha) between b rest hb

/-- Where nothing is known of what the first parser gives. -/
theorem next (hf : ∀ a, (f a).Ensures Q) : Ensures (p >>= f) Q :=
  bind trivial fun a _ => hf a

theorem map {g : α → β} (hp : p.Ensures fun a => Q (g a)) : Ensures (g <$> p) Q := by
  intro ts b rest h
  obtain ⟨⟨a, between⟩, ha, hb⟩ := bind_eq_ok.1 h
  cases hb
  exact hp ts a _ ha

end Parser.Ensures

/-! ## Lists -/

variable {element : Parser α} {P : α → Prop}

theorem ensures_afterCommas (h : element.Ensures P) (bound : List Located) :
    (afterCommas element bound).Ensures fun list => ∀ x ∈ list, P x := by
  induction bound with
  | nil => exact .pure (List.forall_mem_nil P)
  | cons _ bound ih =>
    rw [afterCommas]
    refine .next fun found => ?_
    cases found with
    | true =>
      refine h.bind fun x hx => ih.bind fun rest hrest => ?_
      exact .pure (List.forall_mem_cons.2 ⟨hx, hrest⟩)
    | false => exact .pure (List.forall_mem_nil P)

/-- A list with commas has an element, and what one element ensures holds of all. -/
theorem ensures_commaSeparated (h : element.Ensures P) :
    (commaSeparated element).Ensures fun list => list ≠ [] ∧ ∀ x ∈ list, P x := by
  refine h.bind fun first hfirst => .next fun bound => ?_
  refine (ensures_afterCommas h bound).bind fun rest hrest => ?_
  exact .pure ⟨List.cons_ne_nil first rest, List.forall_mem_cons.2 ⟨hfirst, hrest⟩⟩

end FlatQasm.Grammar
