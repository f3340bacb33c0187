import FlatQasm.Proofs.Grammar.TopLevel
import FlatQasm.Proofs.Program.Agreement
import FlatQasm.Proofs.Source.Items
import Mathlib.Data.List.DropRight

/-!
# Where errors are reported

The position of an item counts the lines in front of it and the characters in front of it on its
line.  The position of an error is that of an item: of the first one that is no token, or of a
token.  Only where a header is missing and there is nothing at all, there is no item to point to.
When the program has been read, the token is the first one of a statement.

## Main statements

* `Position.after_start` — what a position counts.
* `Circuit.ofTokens_position` — an error behind the scanner is at a token.
* `positions_exact` — what the position of an item and of an error is.
-/

namespace FlatQasm

open FlatQasm.Grammar (TopLevel)

/-- **A position** counts the lines in front of it, and the characters on its own line. -/
theorem Position.after_start (front : List Char) : Position.start.after front =
    ⟨1 + front.count '\n', 1 + (front.rtakeWhile (· ≠ '\n')).length⟩ := by
  induction front using List.reverseRecOn with
  | nil => rfl
  | append_singleton front c ih =>
    rw [Position.after_append, ih]
    by_cases hc : c = '\n'
    · subst hc
      rw [List.rtakeWhile_concat_neg _ _ _ (by simp), List.count_append]
      rfl
    · rw [List.rtakeWhile_concat_pos _ _ _ (by simpa using hc), List.count_append,
        List.length_append, List.count_singleton, if_neg (by simpa using hc)]
      exact if_neg hc

/-! ## Errors -/

/-- What the error of an import points to. -/
inductive PointsTo (source : String) (rule : HeaderRule) : ImportError → Prop where
  /-- The first item that is no token. -/
  | lexeme {before after : List Item} {i : Item} (hitems : items source = before ++ i :: after)
      (hbefore : ∀ j ∈ before, j.token?.isSome = true) (hi : i.token? = none) :
      PointsTo source rule (.invalidLexeme i.position i.text)
  /-- The place where a header is missing in front of nothing. -/
  | empty (hitems : items source = []) (hrule : rule = .required) :
      PointsTo source rule (.missingHeader ⟨1, 1⟩ none)
  /-- A token, which is the one that was found where another one was expected. -/
  | token {e : ImportError} {i : Item} {t : Token}
      (hitems : ∀ j ∈ items source, j.token?.isSome = true) (hi : i ∈ items source)
      (ht : i.token? = some t) (hposition : e.position? = some i.position)
      (hfound : ∀ p expected found, e = .unexpectedToken p expected found → found = t) :
      PointsTo source rule e

/-- The error of the scanner points to the first item that is no token. -/
theorem pointsTo_of_tokens {source : String} {rule : HeaderRule} {e : ImportError}
    (h : tokens source = .error e) : PointsTo source rule e := by
  rw [tokens_eq_mapM_items] at h
  have hinvalid : ∃ i ∈ items source, i.token? = none := by
    obtain ⟨i, hi, herror⟩ := exists_of_mapM_eq_error h
    exact ⟨i, hi, (Item.located_eq_error.1 herror).1⟩
  obtain ⟨before, i, after, hitems, hbefore, hi⟩ := exists_first hinvalid
  have hbefore : ∀ j ∈ before, j.token?.isSome = true :=
    fun j hj => Option.isSome_iff_ne_none.2 (hbefore j hj)
  have hlocated : ∀ j ∈ before, ∃ t, j.located = .ok t := by
    intro j hj
    obtain ⟨t, ht⟩ := Option.isSome_iff_exists.1 (hbefore j hj)
    exact ⟨⟨t, j.position⟩, Item.located_eq_ok.2 ⟨ht, rfl⟩⟩
  rw [hitems, mapM_eq_error_of_first hlocated (Item.located_eq_error.2 ⟨hi, rfl⟩)] at h
  cases h
  exact .lexeme hitems hbefore hi

/-- Behind the scanner, an error is at a token, or there is none and no header. -/
theorem Circuit.ofTokens_position {rule : HeaderRule} {ts : List Located} {e : ImportError}
    (h : ofTokens rule ts = .error e) {p : Position} (hp : e.position? = some p) :
    (ts = [] ∧ rule = .required ∧ e = .missingHeader .start none) ∨
      ∃ t ∈ ts, t.position = p ∧ ∀ found, e.unexpected? = some found → found = t.token := by
  by_cases hnone : rule = .required ∧ ts = []
  · obtain ⟨rfl, rfl⟩ := hnone
    cases h
    exact .inl ⟨rfl, rfl, rfl⟩
  · have hts : List.Forall₂ (fun t t' => t = t' ∧ t ∈ ts) ts ts :=
      List.forall₂_same.2 fun t ht => ⟨rfl, ht⟩
    have hagree := agree_ofTokens (fun t t' h => congrArg Located.token h.1) rule hts
      fun hrule hnil => hnone ⟨hrule, hnil⟩
    obtain ⟨e', -, herror⟩ := hagree.exists_error h
    obtain ⟨t, t', ⟨-, ht⟩, hposition, hfound⟩ := herror.exists_token hp
    exact .inr ⟨t, ht, hposition, hfound⟩

theorem pointsTo_of_ofTokens {source : String} {rule : HeaderRule} {ts : List Located}
    {e : ImportError} (hts : tokens source = .ok ts) (h : Circuit.ofTokens rule ts = .error e)
    {p : Position} (hp : e.position? = some p) : PointsTo source rule e := by
  have hitems := tokens_eq_ok.1 hts
  rcases Circuit.ofTokens_position h hp with ⟨rfl, hrule, rfl⟩ | ⟨t, ht, rfl, hfound⟩
  · exact .empty (List.forall₂_nil_right_iff.1 hitems) hrule
  · obtain ⟨i, hi, htoken, hposition⟩ := exists_mem_of_forall₂ hitems ht
    refine .token (Item.tokens_eq_map hitems).2 hi htoken (hposition ▸ hp) ?_
    rintro p expected found rfl
    exact hfound found rfl

/-- A token is the first one of a statement. -/
def Program.StartsAt (program : Program) (ts : List Located) (t : Located) : Prop :=
  ∃ s ∈ program.statements, s.position = t.position ∧ ∃ before after, ts = before ++ t :: after ∧
    TopLevel (before.map Located.token) ∧
      t.token ≠ .keyword .openqasm ∧ t.token ≠ .keyword .includeFile

/-- Behind the parser, an error is at the first token of a statement. -/
theorem Program.toCircuit_position {rule : HeaderRule} {ts rest : List Located} {program : Program}
    (hprogram : Grammar.program rule ts = .ok (program, rest)) {e : ImportError}
    (h : program.toCircuit = .error e) {p : Position} (hp : e.position? = some p) :
    ∃ t, t.position = p ∧ program.StartsAt ts t := by
  have hstatements : List.Forall₂ (Statement.Agrees fun t t' => t = t' ∧ program.StartsAt ts t)
      program.statements program.statements := by
    refine List.forall₂_same.2 fun s hs => ⟨rfl, ?_⟩
    obtain ⟨before, t, after, hts, htop, hposition, ht⟩ :=
      Grammar.exists_start_of_program hprogram s hs
    exact ⟨t, t, ⟨rfl, s, hs, hposition, before, after, hts, htop, ht⟩, hposition.symm,
      hposition.symm⟩
  obtain ⟨e', -, herror⟩ := (agree_toCircuit hstatements).exists_error h
  obtain ⟨t, t', ⟨-, hstart⟩, hposition, -⟩ := herror.exists_token hp
  exact ⟨t, hposition, hstart⟩

/-- **Positions are exact.**  The position of an item counts lines and characters.  An error that
has a position points to an item, or there is none; and when the program has been read, it points to
the first token of a statement, outside of every definition. -/
theorem positions_exact (source : String) :
    (∀ i ∈ items source, ∃ front behind, source.toList = front ++ i.text ++ behind ∧
      String.utf8Len front = i.start ∧
      i.position = ⟨1 + front.count '\n', 1 + (front.rtakeWhile (· ≠ '\n')).length⟩) ∧
    (∀ rule e p, Circuit.ofSource source rule = .error e → e.position? = some p →
      PointsTo source rule e) ∧
    ∀ rule program e p, Program.parse source rule = .ok program → program.toCircuit = .error e →
      e.position? = some p → ∃ s ∈ program.statements, s.position = p ∧
        ∃ before i after t, items source = before ++ i :: after ∧ TopLevel (Item.tokens before) ∧
          i.position = p ∧ i.token? = some t ∧
            t ≠ .keyword .openqasm ∧ t ≠ .keyword .includeFile := by
  refine ⟨fun i hi => ?_, fun rule e p h hp => ?_, fun rule program e p hprogram h hp => ?_⟩
  · obtain ⟨before, after, hitems⟩ := List.append_of_mem hi
    obtain ⟨a, gap, behind, htext, -, -, hstart, hposition, -⟩ :=
      (tiles_items source).exists_item hitems
    refine ⟨a ++ gap, behind, by simp [htext], ?_, ?_⟩
    · rw [hstart, List.nil_append]
    · rw [hposition, List.nil_append, Position.after_start]
  · rw [Circuit.ofSource_eq_bind] at h
    rcases bind_eq_error.1 h with h | ⟨ts, hts, h⟩
    · exact pointsTo_of_tokens h
    · exact pointsTo_of_ofTokens hts h hp
  · obtain ⟨ts, hts, hprogram⟩ := bind_eq_ok.1 hprogram
    obtain ⟨⟨program', rest⟩, hprogram, heq⟩ := bind_eq_ok.1 hprogram
    cases heq
    obtain ⟨t, rfl, s, hs, hposition, before, after, rfl, htop, ht⟩ :=
      Program.toCircuit_position hprogram h hp
    refine ⟨s, hs, hposition, ?_⟩
    obtain ⟨u, v, hitems, hbefore, hafter⟩ := exists_append_of_forall₂ (tokens_eq_ok.1 hts)
    obtain ⟨i, v, ⟨htoken, hplace⟩, -, rfl⟩ := List.forall₂_cons_right_iff.1 hafter
    have htokens := (Item.tokens_eq_map hbefore).1
    exact ⟨u, i, v, t.token, hitems, htokens ▸ htop, hplace, htoken, ht⟩

end FlatQasm
