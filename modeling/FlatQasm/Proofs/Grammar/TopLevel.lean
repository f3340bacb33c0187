import FlatQasm.Proofs.Grammar.Extent

/-!
# Between two statements

Where a statement of a program ends can be seen without reading it: every brace is closed, and the
last token is a semicolon or a brace.  In a program that is read, this is the case behind its
header, behind each of its statements and behind each `include`, and nowhere else.  An `include` may
be put in wherever it is the case.

## Main definitions

* `TopLevel` — a statement may start behind some tokens.
* `Piece` — the tokens of a statement, or of an `include`.

## Main statements

* `TopLevel.split` — no statement may start inside another one.
* `exists_start_of_statements` — where the statements of a program start.
* `takes_program_include` — an `include` between two statements.
-/

namespace FlatQasm.Grammar

open FlatQasm.Grammar.Parser (Takes Closes)

/-- How many braces a token opens. -/
def braces : Token → ℤ
  | .punct .leftBrace => 1
  | .punct .rightBrace => -1
  | _ => 0

/-- A statement may start behind some tokens: all braces are closed, and the last token is the end
of a statement, if there is one. -/
structure TopLevel (u : List Token) : Prop where
  closed : (u.map braces).sum = 0
  ended : ∀ t ∈ u.getLast?, t = .punct .semicolon ∨ t = .punct .rightBrace

theorem topLevel_nil : TopLevel [] := ⟨rfl, by simp⟩

section Units

variable {u v w : List Token}

theorem sum_braces_of_braceless (hu : u ∈ braceless) : (u.map braces).sum = 0 := by
  induction u with
  | nil => rfl
  | cons t u ih =>
    obtain ⟨ht, hu⟩ := List.forall_mem_cons.1 hu
    have hbraces : braces t = 0 := by
      unfold braces
      split
      · exact absurd rfl ht.1
      · exact absurd rfl ht.2
      · rfl
    rw [List.map_cons, List.sum_cons, hbraces, ih hu, add_zero]

theorem plain_le_braceless : plain ≤ braceless := fun _ hu t ht => (hu t ht).2

/-- Behind tokens without marks no statement may start. -/
theorem not_topLevel_of_plain (hu : u ∈ plain) (hne : u ≠ []) : ¬ TopLevel u := by
  intro h
  have ht := hu _ (List.getLast_mem hne)
  rcases h.ended _ (List.getLast?_eq_some_getLast hne) with hlast | hlast
  · exact ht.1 hlast
  · exact ht.2.2 hlast

theorem TopLevel.append_iff (hu : TopLevel u) : TopLevel (u ++ v) ↔ TopLevel v := by
  have hsum : ((u ++ v).map braces).sum = (v.map braces).sum := by
    rw [List.map_append, List.sum_append, hu.closed, zero_add]
  rcases List.eq_nil_or_concat v with rfl | ⟨v, t, rfl⟩
  · rw [List.append_nil]
    exact ⟨fun _ => topLevel_nil, fun _ => hu⟩
  · have hlast : (u ++ v.concat t).getLast? = (v.concat t).getLast? := by simp
    exact ⟨fun h => ⟨hsum ▸ h.closed, hlast ▸ h.ended⟩, fun h => ⟨hsum ▸ h.closed, hlast ▸ h.ended⟩⟩

theorem topLevel_concat {t : Token} (hclosed : ((u ++ [t]).map braces).sum = 0)
    (ht : t = .punct .semicolon ∨ t = .punct .rightBrace) : TopLevel (u ++ [t]) := by
  refine ⟨hclosed, fun t' ht' => ?_⟩
  rw [List.getLast?_concat] at ht'
  cases ht'
  exact ht

theorem topLevel_of_unit (hu : u ∈ unit) : u ≠ [] ∧ TopLevel u := by
  rcases hu with ⟨a, ha, _, rfl, rfl⟩ | ⟨a, ha, _, ⟨_, rfl, _, ⟨b, hb, _, rfl, rfl⟩, rfl⟩, rfl⟩
  · have hsum := sum_braces_of_braceless (plain_le_braceless ha)
    exact ⟨by simp, topLevel_concat (by simp [hsum, braces]) (.inl rfl)⟩
  · have hsum := sum_braces_of_braceless (plain_le_braceless ha)
    have hsum' := sum_braces_of_braceless hb
    refine ⟨by simp, ?_⟩
    dsimp only
    rw [← List.append_assoc, ← List.append_assoc]
    exact topLevel_concat (by simp [hsum, hsum', braces]) (.inr rfl)

/-- What is not the whole of a text with one more token is a part of the text. -/
theorem exists_append_of_concat {a : List Token} {t : Token} (h : a ++ [t] = u ++ v) (hv : v ≠ []) :
    ∃ w, a = u ++ w := by
  have hprefix : u <+: a ++ [t] := ⟨v, h.symm⟩
  rcases List.prefix_concat_iff.1 hprefix with hwhole | ⟨w, hw⟩
  · rw [hwhole] at h
    exact absurd (List.append_right_eq_self.1 h.symm) hv
  · exact ⟨w, hw.symm⟩

/-- **Inside a statement no other one may start.** -/
theorem not_topLevel_of_unit (huv : u ++ v ∈ unit) (hu : u ≠ []) (hv : v ≠ []) : ¬ TopLevel u := by
  have of_plain {a c : List Token} (ha : a ∈ plain) (hac : a = u ++ c) : ¬ TopLevel u :=
    not_topLevel_of_plain (fun t ht => ha t (hac ▸ List.mem_append_left c ht)) hu
  rcases huv with ⟨a, ha, _, rfl, heq⟩ | ⟨a, ha, _, ⟨_, rfl, _, ⟨b, hb, _, rfl, rfl⟩, rfl⟩, heq⟩
  · obtain ⟨c, hc⟩ := exists_append_of_concat heq hv
    exact of_plain ha hc
  · rcases List.append_eq_append_iff.1 heq with ⟨c, rfl, hc⟩ | ⟨c, hc, -⟩
    swap
    · exact of_plain ha hc
    cases c with
    | nil => exact of_plain ha (c := []) (by simp)
    | cons t c =>
      -- A body has been opened, and it ends with the last token only.
      obtain ⟨rfl, htail⟩ := List.cons.inj hc
      obtain ⟨d, rfl⟩ := exists_append_of_concat htail hv
      have hsum := sum_braces_of_braceless (plain_le_braceless ha)
      have hsum' := sum_braces_of_braceless (u := c) fun t ht => hb t (List.mem_append_left d ht)
      intro h
      have hclosed := h.closed
      simp [hsum, hsum', braces] at hclosed

/-- Tokens that end where a statement may start do not end inside the first one. -/
theorem TopLevel.split {rest before after : List Token} (hu : u ∈ unit) (h : TopLevel before)
    (heq : u ++ rest = before ++ after) :
    before = [] ∨
      ∃ before', before = u ++ before' ∧ TopLevel before' ∧ rest = before' ++ after := by
  rcases List.append_eq_append_iff.1 heq with ⟨before', rfl, rfl⟩ | ⟨v, rfl, rfl⟩
  · exact .inr ⟨before', rfl, (topLevel_of_unit hu).2.append_iff.1 h, rfl⟩
  · by_cases hbefore : before = []
    · exact .inl hbefore
    · by_cases hv : v = []
      · subst hv
        exact .inr ⟨[], by simp, topLevel_nil, by simp⟩
      · exact absurd h (not_topLevel_of_unit hu hbefore hv)

end Units

/-! ## Pieces of a program -/

/-- The names declared behind a statement, or behind an `include`. -/
def behind? (scope : Scope) (s? : Option Statement) : Scope := s?.elim scope scope.declare

/-- Statements with the same kinds, whatever their positions are. -/
def SameKinds (list list' : List Statement) : Prop :=
  list'.map Statement.kind = list.map Statement.kind

/-- The tokens of a statement, or of an `include`, at the front of others. -/
structure Piece (scope : Scope) (s? : Option Statement) (used : List Located) : Prop where
  unit : used.map Located.token ∈ unit
  first : ∀ t ∈ used.head?, t.token ≠ .keyword .openqasm ∧
    ∀ s ∈ s?, s.position = t.position ∧ t.token ≠ .keyword .includeFile
  step : ∀ (b : Located) (bound : List Located) {located : List Located} {us : List Token},
    located.map Located.token = used.map Located.token ++ us →
      ∃ front behind, SameKinds s?.toList front ∧ behind.map Located.token = us ∧
        statements (b :: bound) scope located =
          (statements bound (behind? scope s?) behind).map fun found =>
            (front ++ found.1, found.2)

theorem SameKinds.append {list list' others others' : List Statement} (h : SameKinds list list')
    (h' : SameKinds others others') : SameKinds (list ++ others) (list' ++ others') := by
  rw [SameKinds, List.map_append, List.map_append, h, h']

/-- Where the tokens behind a piece are read, so are those of the piece in front of them. -/
theorem Piece.takes {scope : Scope} {s? : Option Statement} {used : List Located}
    (piece : Piece scope s? used) {b : Located} {bound : List Located} {us : List Token}
    {others : List Statement}
    (hrest : (statements bound (behind? scope s?)).Takes us (SameKinds others) []) :
    (statements (b :: bound) scope).Takes (used.map Located.token ++ us)
      (SameKinds (s?.toList ++ others)) [] := by
  intro located hlocated
  obtain ⟨front, behind, hfront, hbehind, heq⟩ := piece.step b bound hlocated
  obtain ⟨found, end_, hfound, hkinds, hend⟩ := hrest behind hbehind
  refine ⟨front ++ found, end_, ?_, hfront.append hkinds, hend⟩
  rw [heq, hfound]
  rfl

section Statements

variable {bound : List Located} {scope : Scope}

/-- An `include` is a piece. -/
theorem exists_piece_of_includedFile (scope : Scope) (p : Position) {ts between : List Located}
    (h : includedFile ts = .ok ((), between)) :
    ∃ used, ⟨.keyword .includeFile, p⟩ :: ts = used ++ between ∧ Piece scope none used := by
  obtain ⟨used, rfl, hne, ⟨u, hu, v, hv, huv⟩, htakes⟩ := closes_includedFile _ _ _ h
  have hword : [.keyword .includeFile] ∈ plain := singleton_mem_plain (by simp)
  refine ⟨⟨.keyword .includeFile, p⟩ :: used, rfl, ?_, ?_, ?_⟩
  · exact .inl ⟨_, append_mem_plain hword hu, v, hv, by rw [List.map_cons, ← huv]; rfl⟩
  · rintro _ ⟨⟩
    exact ⟨by simp, by simp⟩
  · intro b bound located us hlocated
    obtain ⟨p', file, rfl, hrest⟩ := exists_of_map_eq_cons hlocated
    obtain ⟨⟨⟩, behind, hfile, -, hbehind⟩ := htakes us file hrest
    refine ⟨[], behind, rfl, hbehind, ?_⟩
    have hstep : statements (b :: bound) scope (⟨.keyword .includeFile, p'⟩ :: file) =
        statements bound scope behind := by
      rw [statements_include, hfile, ok_bind]
    rw [hstep]
    change _ = Except.map _ (statements bound scope behind)
    cases statements bound scope behind <;> rfl

/-- A statement is a piece. -/
theorem exists_piece_of_statement {t : Token} {p : Position} {ts between : List Located}
    (ht : t ≠ .keyword .includeFile) {first : Statement}
    (h : statement scope (⟨t, p⟩ :: ts) = .ok (first, between)) :
    ∃ used, ⟨t, p⟩ :: ts = used ++ between ∧ Piece scope (some first) used := by
  obtain ⟨⟨kind, between⟩, hkind, heq⟩ := bind_eq_ok.1 h
  cases heq
  obtain ⟨used, hsplit, hne, hused, htakes⟩ := closes_statementKind scope _ _ _ hkind
  obtain ⟨t', used, rfl⟩ := List.exists_cons_of_ne_nil hne
  obtain ⟨rfl, -⟩ := List.cons.inj hsplit
  refine ⟨_, hsplit, hused, ?_, ?_⟩
  · rintro _ ⟨⟩
    refine ⟨?_, fun s hs => ?_⟩
    · rintro rfl
      cases hkind
    · cases hs
      exact ⟨rfl, ht⟩
  · intro b bound located us hlocated
    obtain ⟨kind', behind, hkind', rfl, hbehind⟩ := htakes us located hlocated
    obtain ⟨p', rest, rfl, -⟩ := exists_of_map_eq_cons hlocated
    refine ⟨[⟨kind, p'⟩], behind, rfl, hbehind, ?_⟩
    have hstatement : statement scope (⟨t, p'⟩ :: rest) = .ok (⟨kind, p'⟩, behind) :=
      bind_eq_ok.2 ⟨_, hkind', rfl⟩
    have hscope : behind? scope (some ⟨kind, p⟩) = scope.declare ⟨kind, p'⟩ :=
      declare_congr rfl
    rw [statements_of_ne ht, hstatement]
    change _ = Except.map _ (statements bound (behind? scope (some ⟨kind, p⟩)) behind)
    rw [hscope]
    change (statements bound (scope.declare ⟨kind, p'⟩) behind >>= _) = _
    cases statements bound (scope.declare ⟨kind, p'⟩) behind <;> rfl

/-- Statements that are read start with a piece. -/
theorem exists_piece {b t : Located} {ts rest : List Located} {list : List Statement}
    (h : statements (b :: bound) scope (t :: ts) = .ok (list, rest)) :
    ∃ used between s? others, t :: ts = used ++ between ∧ Piece scope s? used ∧
      list = s?.toList ++ others ∧
      statements bound (behind? scope s?) between = .ok (others, rest) := by
  obtain ⟨t, p⟩ := t
  by_cases ht : t = .keyword .includeFile
  · subst ht
    rw [statements_include, bind_eq_ok] at h
    obtain ⟨⟨⟨⟩, between⟩, hfile, hothers⟩ := h
    obtain ⟨used, hsplit, piece⟩ := exists_piece_of_includedFile scope p hfile
    exact ⟨used, between, none, list, hsplit, piece, rfl, hothers⟩
  · rw [statements_of_ne ht, bind_eq_ok] at h
    obtain ⟨⟨first, between⟩, hfirst, h⟩ := h
    obtain ⟨⟨others, end_⟩, hothers, heq⟩ := bind_eq_ok.1 h
    cases heq
    obtain ⟨used, hsplit, piece⟩ := exists_piece_of_statement ht hfirst
    exact ⟨used, between, some first, others, hsplit, piece, rfl, hothers⟩

/-- **Where statements start**: behind tokens that end where a statement may start, and at a token
that neither starts the header nor an `include`. -/
theorem exists_start_of_statements {ts rest : List Located} {list : List Statement}
    (h : statements bound scope ts = .ok (list, rest)) : ∀ s ∈ list, ∃ before t after,
      ts = before ++ t :: after ∧ TopLevel (before.map Located.token) ∧
        s.position = t.position ∧
          t.token ≠ .keyword .openqasm ∧ t.token ≠ .keyword .includeFile := by
  induction bound generalizing scope ts list with
  | nil =>
    cases h
    exact List.forall_mem_nil _
  | cons b bound ih =>
    cases ts with
    | nil =>
      cases h
      exact List.forall_mem_nil _
    | cons t ts =>
      obtain ⟨used, between, s?, others, hsplit, piece, rfl, hothers⟩ := exists_piece h
      rw [hsplit]
      have hunit := topLevel_of_unit piece.unit
      intro s hs
      rcases List.mem_append.1 hs with hs | hs
      · rw [Option.mem_toList] at hs
        have hne : used ≠ [] := by
          rintro rfl
          exact hunit.1 rfl
        obtain ⟨t, used, rfl⟩ := List.exists_cons_of_ne_nil hne
        obtain ⟨hheader, hfirst⟩ := piece.first t rfl
        exact ⟨[], t, used ++ between, rfl, topLevel_nil, (hfirst s hs).1, hheader, (hfirst s hs).2⟩
      · obtain ⟨before, t, after, rfl, htop, hposition, ht⟩ := ih hothers s hs
        refine ⟨used ++ before, t, after, by simp, ?_, hposition, ht⟩
        rw [List.map_append]
        exact hunit.2.append_iff.2 htop

/-- The same statements are read from tokens at other places, with any bound that is large
enough. -/
theorem takes_of_statements {ts rest : List Located} {list : List Statement}
    (hbound : ts.length ≤ bound.length) (h : statements bound scope ts = .ok (list, rest))
    {bound' : List Located} (hbound' : ts.length ≤ bound'.length) :
    (statements bound' scope).Takes (ts.map Located.token) (SameKinds list) [] := by
  induction bound generalizing scope ts list bound' with
  | nil =>
    obtain rfl : ts = [] := List.length_eq_zero_iff.1 (Nat.le_zero.1 hbound)
    cases h
    exact takes_statements_nil.mono fun list hlist => by rw [hlist]; rfl
  | cons b bound ih =>
    cases ts with
    | nil =>
      cases h
      exact takes_statements_nil.mono fun list hlist => by rw [hlist]; rfl
    | cons t ts =>
      obtain ⟨used, between, s?, others, hsplit, piece, rfl, hothers⟩ := exists_piece h
      rw [hsplit] at hbound hbound' ⊢
      have hpos := List.length_pos_iff.2 (topLevel_of_unit piece.unit).1
      rw [List.length_map] at hpos
      rw [List.length_append] at hbound hbound'
      rw [List.length_cons] at hbound
      have hlarge : between.length + 1 ≤ bound'.length := by omega
      obtain ⟨b', bound', rfl, hrest⟩ := exists_cons_of_succ_le hlarge
      rw [List.map_append]
      exact piece.takes (ih (by omega) hothers hrest)

/-- The same statements are read when an `include` is put in where one may start. -/
theorem takes_statements_insert {ts rest : List Located} {list : List Statement}
    (hbound : ts.length ≤ bound.length) (h : statements bound scope ts = .ok (list, rest))
    {before after : List Token} (hts : ts.map Located.token = before ++ after)
    (htop : TopLevel before) (name : String) {bound' : List Located}
    (hbound' : ts.length + 1 ≤ bound'.length) :
    (statements bound' scope).Takes
      (before ++ .keyword .includeFile :: .string name :: .punct .semicolon :: after)
      (SameKinds list) [] := by
  induction bound generalizing scope ts list before bound' with
  | nil =>
    obtain rfl : ts = [] := List.length_eq_zero_iff.1 (Nat.le_zero.1 hbound)
    obtain ⟨b', bound', rfl, hrest⟩ := exists_cons_of_succ_le hbound'
    obtain ⟨rfl, rfl⟩ := List.append_eq_nil_iff.1 hts.symm
    exact takes_statements_include (takes_of_statements hbound h hrest)
  | cons b bound ih =>
    by_cases hbefore : before = []
    · subst hbefore
      obtain ⟨b', bound', rfl, hrest⟩ := exists_cons_of_succ_le hbound'
      rw [List.nil_append] at hts ⊢
      exact takes_statements_include (hts ▸ takes_of_statements hbound h hrest)
    cases ts with
    | nil => exact absurd (List.append_eq_nil_iff.1 hts.symm).1 hbefore
    | cons t ts =>
      obtain ⟨used, between, s?, others, hsplit, piece, rfl, hothers⟩ := exists_piece h
      have hpos := List.length_pos_iff.2 (topLevel_of_unit piece.unit).1
      have hlength := congrArg List.length hsplit
      rw [List.length_map] at hpos
      rw [List.length_append] at hlength
      have hbound : (t :: ts).length ≤ bound.length + 1 := hbound
      rw [hsplit, List.map_append] at hts
      obtain ⟨before', rfl, htop', hafter⟩ := (htop.split piece.unit hts).resolve_left hbefore
      obtain ⟨b', bound', rfl, hrest⟩ :=
        exists_cons_of_succ_le (show between.length + 1 + 1 ≤ bound'.length by omega)
      rw [List.append_assoc]
      exact piece.takes (ih (by omega) hothers hafter htop' hrest)

end Statements

/-! ## Whole programs -/

theorem closes_version : Closes version version Eq clause := by
  intro ts found rest h
  have finish : Closes version.finish version.finish Eq clause :=
    closes_semicolon.wait fun _ _ _ => .pure rfl
  cases ts with
  | nil => cases h
  | cons t ts =>
    obtain ⟨t, p⟩ := t
    cases t with
    | float value =>
      rw [version] at h
      split at h
      · next htwo =>
        refine finish.cons (singleton_mem_plain (by simp)) (fun _ _ => ?_) p h
        rw [version, if_pos htwo]
      · cases h
    | int literal =>
      rw [version] at h
      split at h
      · next htwo =>
        refine finish.cons (singleton_mem_plain (by simp)) (fun _ _ => ?_) p h
        rw [version, if_pos htwo]
      · cases h
    | _ => cases h

/-- The header of a program ends where a statement may start, or there is none. -/
theorem header_cases {rule : HeaderRule} {ts rest : List Located} {found : Option String}
    (h : header rule ts = .ok (found, rest)) :
    (∃ used, ts = used ++ rest ∧ used.map Located.token ∈ unit ∧
      (used.map Located.token).head? = some (.keyword .openqasm) ∧
      ∀ us, (header rule).Takes (used.map Located.token ++ us) (found = ·) us) ∨
    (rest = ts ∧ rule = .optional ∧ found = none ∧
      ∀ t ∈ ts.head?, t.token ≠ .keyword .openqasm) := by
  by_cases hfirst : ∀ t ∈ ts.head?, t.token ≠ .keyword .openqasm
  · rw [header_of_ne rule hfirst] at h
    cases rule with
    | required => cases h
    | optional =>
      cases h
      exact .inr ⟨rfl, rfl, rfl, hfirst⟩
  · obtain ⟨t, ht, hheader⟩ : ∃ t ∈ ts.head?, t.token = .keyword .openqasm := by
      simpa using hfirst
    obtain ⟨behind, rfl⟩ := List.head?_eq_some_iff.1 ht
    obtain ⟨t, p⟩ := t
    obtain rfl : t = .keyword .openqasm := hheader
    have hword : [.keyword .openqasm] ∈ plain := singleton_mem_plain (by simp)
    have hversion (q : Position) (rest : List Located) :
        header rule (⟨.keyword .openqasm, q⟩ :: rest) = (some <$> version) rest := rfl
    obtain ⟨used, hsplit, hne, hused, htakes⟩ :=
      (closes_version.map_eq some).cons hword hversion p h
    refine .inl ⟨used, hsplit, .inl hused, ?_, htakes⟩
    obtain ⟨t, used, rfl⟩ := List.exists_cons_of_ne_nil hne
    obtain ⟨rfl, -⟩ := List.cons.inj hsplit
    rfl

section Programs

variable {rule : HeaderRule} {ts rest : List Located} {p : Program}

/-- A program is read up to its last token. -/
theorem rest_eq_nil_of_program (h : program rule ts = .ok (p, rest)) : rest = [] := by
  obtain ⟨⟨found, behind⟩, -, h⟩ := bind_eq_ok.1 h
  obtain ⟨⟨list, end_⟩, hlist, heq⟩ := bind_eq_ok.1 h
  cases heq
  have hlist : statements behind .empty behind = .ok (list, rest) := hlist
  obtain ⟨_, _, hread, -, hend⟩ :=
    takes_of_statements (Nat.le_refl _) hlist (Nat.le_refl _) behind rfl
  cases hlist.symm.trans hread
  exact List.map_eq_nil_iff.1 hend

/-- **Where the statements of a program start.** -/
theorem exists_start_of_program (h : program rule ts = .ok (p, rest)) :
    ∀ s ∈ p.statements, ∃ before t after, ts = before ++ t :: after ∧
      TopLevel (before.map Located.token) ∧ s.position = t.position ∧
        t.token ≠ .keyword .openqasm ∧ t.token ≠ .keyword .includeFile := by
  obtain ⟨⟨found, behind⟩, hheader, h⟩ := bind_eq_ok.1 h
  obtain ⟨⟨list, end_⟩, hlist, heq⟩ := bind_eq_ok.1 h
  cases heq
  intro s hs
  obtain ⟨before, t, after, rfl, htop, ht⟩ := exists_start_of_statements hlist s hs
  obtain ⟨used, rfl, hused, -⟩ | ⟨rfl, -⟩ := header_cases hheader
  · refine ⟨used ++ before, t, after, by simp, ?_, ht⟩
    rw [List.map_append]
    exact (topLevel_of_unit hused).2.append_iff.2 htop
  · exact ⟨before, t, after, rfl, htop, ht⟩

/-- **An `include` may be put in where a statement may start**, but not in front of the header. -/
theorem takes_program_include (h : program rule ts = .ok (p, rest)) {before after : List Token}
    (hts : ts.map Located.token = before ++ after) (htop : TopLevel before)
    (hheader : before = [] → after.head? ≠ some (.keyword .openqasm)) (name : String) :
    (program rule).Takes
      (before ++ .keyword .includeFile :: .string name :: .punct .semicolon :: after)
      (fun p' => p'.version = p.version ∧ SameKinds p.statements p'.statements) [] := by
  obtain ⟨⟨found, behind⟩, hfound, h⟩ := bind_eq_ok.1 h
  obtain ⟨⟨list, end_⟩, hlist, heq⟩ := bind_eq_ok.1 h
  cases heq
  have inserted {before : List Token} (hsplit : behind.map Located.token = before ++ after)
      (htop : TopLevel before) {bound : List Located} (hbound : bound.map Located.token =
        before ++ .keyword .includeFile :: .string name :: .punct .semicolon :: after) := by
    have hlength := congrArg List.length hsplit
    have hlength' := congrArg List.length hbound
    simp only [List.length_map, List.length_append, List.length_cons] at hlength hlength'
    have hlarge : behind.length + 1 ≤ bound.length := by omega
    exact takes_statements_insert (Nat.le_refl _) hlist hsplit htop name hlarge
  obtain ⟨used, rfl, hused, hfirst, htakes⟩ | ⟨rfl, rfl, rfl, hfirst⟩ := header_cases hfound
  · rw [List.map_append] at hts
    obtain rfl | ⟨before', rfl, htop', hafter⟩ := htop.split hused hts
    · refine absurd ?_ (hheader rfl)
      rw [List.nil_append] at hts
      rw [← hts, List.head?_append, hfirst]
      rfl
    · rw [List.append_assoc]
      refine ((htakes _).mono fun _ h => h.symm).step (Takes.get.bind fun bound hbound => ?_)
      exact (inserted hafter htop' hbound).bind fun list' hlist' => .pure ⟨rfl, hlist'⟩
  · refine (takes_noHeader ?_).step (Takes.get.bind fun bound hbound => ?_)
    · cases before with
      | nil =>
        rintro _ ⟨⟩
        simp
      | cons t before =>
        rintro _ ⟨⟩
        obtain ⟨located, others, rfl, rfl, -⟩ := List.map_eq_cons_iff.1 hts
        exact hfirst located rfl
    · exact (inserted hts htop hbound).bind fun list' hlist' => .pure ⟨rfl, hlist'⟩

end Programs

end FlatQasm.Grammar
