import FlatQasm.Proofs.Grammar.ExchangedArguments
import FlatQasm.Proofs.Program.Lines

/-!
# The nesting limit

An argument of a gate is refused when it is nested too deep: when too many parentheses and minus
signs are open at once in it, or when its tree is too high.  What the limit is meant to be, and what
the parser does, differ by one in the first of the two: the parser counts the argument itself as a
level that is open, so that an argument in which exactly as many levels are open as the limit says
is refused too.  The height has the limit that it is meant to have.

## Main definitions

* `BeyondLimit` — an argument that is meant to be refused.
* `HasArgument` — a program that is valid but for one of its arguments.
* `nestedText` — a program with an argument in parentheses.

## Main statements

* `Program.parse_cases` — a program is read, or it is refused for the depth of the argument.
* `Program.nestingTooDeep_iff` — which arguments are refused.
* `Program.nestingLimit_refused` — an argument at the limit that is refused.
-/

namespace FlatQasm

open FlatQasm.Grammar

/-- More levels are open in an angle than the limit, or its tree is higher than the limit. -/
def BeyondLimit (e : Angle) (opened : ℕ) : Prop :=
  nestingLimit < opened ∨ nestingLimit < e.depth

/-- A program that is read when `pi` is the argument of a gate between the tokens `before` and
`after`. -/
structure HasArgument (source : String) (rule : HeaderRule) (before after : List Token) : Prop where
  parses : ∃ p, Program.parse source rule = .ok p
  tokens : tokenSequence source = .ok (before ++ .keyword .pi :: after)
  opens : OpensArgument before
  ends : EndsArgument after

variable {valid source : String} {rule : HeaderRule} {before arg after : List Token} {e : Angle}
  {opened : ℕ}

/-- The argument itself is one of the open levels. -/
theorem within_iff : Within 1 opened e ↔ ¬ (BeyondLimit e opened ∨ opened = nestingLimit) := by
  rw [BeyondLimit]
  constructor
  · rintro ⟨hopened, hdepth⟩
    omega
  · exact fun h => ⟨by omega, by omega⟩

/-- **A program with another argument** is read, or it is refused for the depth of the argument. -/
theorem Program.parse_cases (slot : HasArgument valid rule before after)
    (hsource : tokenSequence source = .ok (before ++ arg ++ after))
    (harg : Argument arg e opened) :
    Within 1 opened e ∧ (∃ p, parse source rule = .ok p) ∨
      ¬ Within 1 opened e ∧ TooDeep (parse source rule) := by
  obtain ⟨p, hp⟩ := slot.parses
  obtain ⟨ts, hts, rest, hprogram⟩ := parse_eq_ok.1 hp
  obtain ⟨_, hts', hmap⟩ := tokenSequence_eq_ok.1 slot.tokens
  cases hts.symm.trans hts'
  obtain ⟨located, hlocated, hmap'⟩ := tokenSequence_eq_ok.1 hsource
  have exchanged : At arg (Within 1 opened e) .name ts located := by
    rw [At, hmap, hmap']
    exact exchanged_append (slot.opens.foldl_next .name) slot.ends
  obtain rfl := rest_eq_nil_of_program hprogram
  rcases keeps_program harg rule ts located exchanged p [] hprogram with
    ⟨p', rest', hprogram', -, hend⟩ | ⟨beyond, deep⟩
  · exact .inl ⟨hend.of_nil, p', parse_eq_ok.2 ⟨located, hlocated, rest', hprogram'⟩⟩
  · obtain ⟨q, hq⟩ := deep
    exact .inr ⟨beyond, q, bind_eq_error.2 (.inr ⟨located, hlocated, bind_eq_error.2 (.inl hq)⟩)⟩

/-! ## Arguments in parentheses -/

/-- The number `pi` in parentheses. -/
def nestedPi (n : ℕ) : List Token :=
  List.replicate n (.punct .leftParen) ++ .keyword .pi :: List.replicate n (.punct .rightParen)

theorem argument_nestedPi (n : ℕ) : Argument (nestedPi n) .pi n := by
  refine ⟨?_, by simp [Angle.quotients]⟩
  induction n with
  | zero => exact .expr (.term (.unary .pi))
  | succ n ih =>
    have hsplit : nestedPi (n + 1) =
        .punct .leftParen :: (nestedPi n ++ [.punct .rightParen]) := by
      rw [nestedPi, nestedPi, List.replicate_succ, List.replicate_succ']
      simp
    rw [hsplit]
    exact .expr (.term (.unary (.parentheses ih)))

/-- A rotation by `pi` in parentheses. -/
def nestedCall (n : ℕ) : String :=
  "rx(" ++ String.ofList (List.replicate n '(') ++ "pi" ++ String.ofList (List.replicate n ')') ++
    ") q[0];"

/-- A program with a rotation by `pi` in parentheses. -/
def nestedText (n : ℕ) : String := "qreg q[1];" ++ "\n" ++ nestedCall n

/-- The tokens of the first line. -/
def nestedDeclaration : List Token :=
  [.keyword .qreg, .ident "q", .punct .leftBracket, .int (.word 1), .punct .rightBracket,
    .punct .semicolon]

/-- The tokens in front of the argument. -/
def nestedBefore : List Token := nestedDeclaration ++ [.ident "rx", .punct .leftParen]

/-- The tokens behind the argument. -/
def nestedAfter : List Token :=
  [.punct .rightParen, .ident "q", .punct .leftBracket, .int (.word 0), .punct .rightBracket,
    .punct .semicolon]

theorem lexes_replicate {c : Char} {sign : Punct}
    (hscan : ∀ rest, scan c rest = (.token (.punct sign), 0)) (n : ℕ) {rest : List Char}
    {ts : List Token} (h : Lexes rest ts) :
    Lexes (List.replicate n c ++ rest) (List.replicate n (.punct sign) ++ ts) := by
  induction n with
  | zero => exact h
  | succ n ih => exact .token (hscan _) ih

theorem lexes_nestedCall (n : ℕ) : Lexes (nestedCall n).toList
    (.ident "rx" :: .punct .leftParen :: (nestedPi n ++ nestedAfter)) := by
  have behind : Lexes ") q[0];".toList nestedAfter :=
    .token rfl (.skip rfl (.token rfl (.token rfl (.token rfl (.token rfl (.token rfl .nil))))))
  have close := lexes_replicate (c := ')') (fun _ => rfl) n behind
  have apart : Apart (List.replicate n ')' ++ ") q[0];".toList) := by
    cases n <;> exact apart_cons rfl (by decide)
  have open_ := lexes_replicate (c := '(') (fun _ => rfl) n (Lexes.keyword .pi apart close)
  have hname : IsIdentifier "rx" := by decide
  have all := Lexes.identifier hname (apart_cons rfl (by decide)) (.token (c := '(') rfl open_)
  rw [nestedCall, nestedPi]
  simpa [Keyword.text] using all

theorem tokenSequence_nestedText (n : ℕ) :
    tokenSequence (nestedText n) = .ok (nestedBefore ++ nestedPi n ++ nestedAfter) := by
  have hfront : tokenSequence "qreg q[1];" = .ok nestedDeclaration := by cbv
  obtain ⟨ts, hts, hmap⟩ := tokenSequence_eq_ok.1 hfront
  obtain ⟨located, hlocated, hall⟩ := Program.exists_tokens_line hts (lexes_nestedCall n)
  refine tokenSequence_eq_ok.2 ⟨located, hlocated, ?_⟩
  rw [hall, hmap, List.append_assoc]
  rfl

/-- Without parentheses, the program is read. -/
theorem hasArgument_nestedText :
    HasArgument (nestedText 0) .optional nestedBefore nestedAfter := by
  have htokens := tokenSequence_nestedText 0
  obtain ⟨ts, hts, hmap⟩ := tokenSequence_eq_ok.1 htokens
  -- Where the tokens stand makes no difference.
  have hsame : ((nestedBefore ++ nestedPi 0 ++ nestedAfter).map (Located.mk · .start)).map
      Located.token = ts.map Located.token := hmap.symm
  obtain ⟨p, hp⟩ : ∃ p, program .optional
      ((nestedBefore ++ nestedPi 0 ++ nestedAfter).map (Located.mk · .start)) = .ok (p, []) :=
    ⟨_, rfl⟩
  obtain ⟨⟨p', rest'⟩, hp', -⟩ :=
    (agree_program (fun _ _ h => h) .optional (forall₂_of_map_eq hsame) (by simp)).exists_ok hp
  rw [List.append_assoc] at htokens
  exact ⟨⟨p', Program.parse_eq_ok.2 ⟨ts, hts, rest', hp'⟩⟩, htokens, .inr ⟨_, _, rfl⟩, .inr rfl⟩

/-! ## Where the limit is -/

/-- **Which arguments are refused for their depth**, and that all others are read: those beyond the
limit, and those in which exactly as many levels are open. -/
theorem Program.nestingTooDeep_iff (slot : HasArgument valid rule before after)
    (hsource : tokenSequence source = .ok (before ++ arg ++ after))
    (harg : Argument arg e opened) :
    ((∃ q, parse source rule = .error (.nestingTooDeep q)) ↔
        BeyondLimit e opened ∨ opened = nestingLimit) ∧
      ((∃ p, parse source rule = .ok p) ↔ ¬ (BeyondLimit e opened ∨ opened = nestingLimit)) := by
  rw [← within_iff]
  rcases parse_cases slot hsource harg with ⟨within, p, hp⟩ | ⟨beyond, q, hq⟩
  · refine ⟨⟨?_, fun h => absurd h (within_iff.1 within)⟩, fun _ => within, fun _ => ⟨p, hp⟩⟩
    rintro ⟨q, hq⟩
    cases hp.symm.trans hq
  · refine ⟨⟨fun _ => not_not.1 (mt within_iff.2 beyond), fun _ => ⟨q, hq⟩⟩, ?_,
      fun within => absurd within beyond⟩
    rintro ⟨p, hp⟩
    cases hp.symm.trans hq

/-- The last number of parentheses that is read, and the first one that is refused. -/
theorem Program.nestingTooDeep_iff_nestedText :
    HasArgument (nestedText 0) .optional nestedBefore nestedAfter ∧
      (tokenSequence (nestedText 255) = .ok (nestedBefore ++ nestedPi 255 ++ nestedAfter) ∧
        Argument (nestedPi 255) .pi 255 ∧ ∃ p, parse (nestedText 255) .optional = .ok p) ∧
      tokenSequence (nestedText 256) = .ok (nestedBefore ++ nestedPi 256 ++ nestedAfter) ∧
        Argument (nestedPi 256) .pi 256 ∧
        ∃ q, parse (nestedText 256) .optional = .error (.nestingTooDeep q) := by
  have slot := hasArgument_nestedText
  have hsource := tokenSequence_nestedText 255
  have hsource' := tokenSequence_nestedText 256
  have harg := argument_nestedPi 255
  have harg' := argument_nestedPi 256
  have hwithin : ¬ (BeyondLimit .pi 255 ∨ 255 = nestingLimit) := by
    rintro ((h | h) | h) <;> exact absurd h (by decide)
  exact ⟨slot, ⟨hsource, harg, (nestingTooDeep_iff slot hsource harg).2.2 hwithin⟩,
    hsource', harg', (nestingTooDeep_iff slot hsource' harg').1.2 (.inr rfl)⟩

/-- **The limit is not the one that is meant**: in as many parentheses as it says, an argument is
refused. -/
theorem Program.nestingLimit_refused :
    ¬ ∀ (valid source : String) (rule : HeaderRule) (before arg after : List Token) (e : Angle)
      (opened : ℕ), HasArgument valid rule before after →
        tokenSequence source = .ok (before ++ arg ++ after) → Argument arg e opened →
          ((∃ q, parse source rule = .error (.nestingTooDeep q)) ↔ BeyondLimit e opened) ∧
            ((∃ p, parse source rule = .ok p) ↔ ¬ BeyondLimit e opened) := by
  intro h
  have hbelow : ¬ BeyondLimit .pi 256 := by
    rintro (h | h) <;> exact absurd h (by decide)
  have hargument := argument_nestedPi 256
  have hsource := tokenSequence_nestedText 256
  obtain ⟨p, hp⟩ := (h _ _ _ _ _ _ _ _ hasArgument_nestedText hsource hargument).2.2 hbelow
  rcases parse_cases hasArgument_nestedText hsource hargument with ⟨within, -⟩ | ⟨-, q, hq⟩
  · exact absurd within.opened_le (by decide)
  · cases hp.symm.trans hq

end FlatQasm
