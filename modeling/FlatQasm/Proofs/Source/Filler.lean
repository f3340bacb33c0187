import FlatQasm.Proofs.Source.Items

/-!
# Text between tokens

Blanks and whole comments may be put in at either end of a token.  A token could only go on into
what is put in behind it when a longer pattern matched there; but of all patterns only blanks,
comments and strings have a blank in them, and none of these starts with a token and goes on behind
it.  The same is true of the marks that end a statement.

## Main definitions

* `Barrier` — the characters that a token does not go beyond.
* `Filler` — blanks and whole comments.
* `Parted` — no token goes on from one text into another.

## Main statements

* `Scans.replace_behind` — a token stays what it is when the text behind it is replaced.
* `lexes_gap` — what stands between tokens makes no difference.
* `Tiles.exists_cut` — the text behind some tokens is replaced.
-/

namespace FlatQasm

open Pattern

/-! ## Barriers -/

/-- The characters that a token does not go beyond: it has none of them, or it is one of them, or it
is a string. -/
def Barrier (c : Char) : Prop := c ∈ [' ', '\t', '\r', '\n', '\x0c', ';', '\x7d']

instance : DecidablePred Barrier := fun c =>
  inferInstanceAs (Decidable (c ∈ [' ', '\t', '\r', '\n', '\x0c', ';', '\x7d']))

theorem Barrier.isNameChar_eq_false {c : Char} (h : Barrier c) : isNameChar c = false := by
  simp only [Barrier, List.mem_cons, List.not_mem_nil, or_false] at h
  rcases h with rfl | rfl | rfl | rfl | rfl | rfl | rfl <;> rfl

theorem barrier_of_blank {c : Char} (h : c ∈ [' ', '\t', '\r', '\n', '\x0c']) : Barrier c :=
  List.mem_append_left [';', '\x7d'] h

/-- What is not a barrier: names, digits, and the signs in numbers. -/
theorem not_barrier {c : Char} (h : isNameChar c = true ∨ c.isDigit = true ∨ c = '.' ∨ c = '+' ∨
    c = '-') : ¬ Barrier c := by
  intro hbarrier
  have hname := hbarrier.isNameChar_eq_false
  have hdigit := isDigit_eq_false_of_isNameChar hname
  rcases h with h | h | rfl | rfl | rfl
  · exact Bool.false_ne_true (hname.symm.trans h)
  · exact Bool.false_ne_true (hdigit.symm.trans h)
  all_goals exact absurd hbarrier (by decide)

theorem not_barrier_of_digits {d : List Char} (hd : ∀ c ∈ d, c.isDigit = true) :
    ∀ c ∈ d, ¬ Barrier c :=
  fun c hc => not_barrier (.inr (.inl (hd c hc)))

theorem not_barrier_of_exponent {x : List Char} (hx : x ∈ exponent + 1) : ∀ c ∈ x, ¬ Barrier c := by
  rcases hx with hx | hx
  · obtain ⟨e, sign, d, rfl, he, hsign, hd⟩ := mem_exponent.1 hx
    refine List.forall_mem_cons.2 ⟨?_, List.forall_mem_append.2 ⟨?_, not_barrier_of_digits hd.2⟩⟩
    · rcases he with rfl | rfl <;> decide
    · rcases hsign with rfl | rfl | rfl <;> simp [Barrier]
  · rw [(Language.mem_one x).1 hx]
    exact List.forall_mem_nil _

theorem not_barrier_of_name {s : List Char} (h : s ∈ name.language) : ∀ c ∈ s, ¬ Barrier c := by
  obtain ⟨c, rest, rfl, hc, hrest⟩ := h
  refine List.forall_mem_cons.2 ⟨fun hbarrier => ?_, fun d hd => not_barrier (.inl (hrest d hd))⟩
  simp only [Barrier, List.mem_cons, List.not_mem_nil, or_false] at hbarrier
  rcases hbarrier with rfl | rfl | rfl | rfl | rfl | rfl | rfl <;> cases hc

/-- The patterns of texts with a barrier in them. -/
theorem Pattern.of_barrier {p : Pattern} {s : List Char} (hs : s ∈ p.language) {c : Char}
    (hc : c ∈ s) (hbarrier : Barrier c) :
    p = .blanks ∨ p = .comment ∨ p = .string ∨ s.length = 1 := by
  match p, hs with
  | .blanks, _ => exact .inl rfl
  | .comment, _ => exact .inr (.inl rfl)
  | .string, _ => exact .inr (.inr (.inl rfl))
  | .keyword word, hs => exact absurd hbarrier (not_barrier_of_name (keyword_le_name word hs) c hc)
  | .name, hs => exact absurd hbarrier (not_barrier_of_name hs c hc)
  | .integer, hs => exact absurd hbarrier (not_barrier_of_digits hs.2 c hc)
  | .pointFloat, hs =>
    obtain ⟨w, d, x, rfl, hw, hd, hx⟩ := mem_pointFloat.1 hs
    refine absurd hbarrier (List.forall_mem_append.2 ⟨not_barrier_of_digits hw.2,
      List.forall_mem_cons.2 ⟨by decide, List.forall_mem_append.2 ⟨not_barrier_of_digits hd,
        not_barrier_of_exponent hx⟩⟩⟩ c hc)
  | .fractionFloat, hs =>
    obtain ⟨d, x, rfl, hd, hx⟩ := mem_fractionFloat.1 hs
    refine absurd hbarrier (List.forall_mem_cons.2 ⟨by decide,
      List.forall_mem_append.2 ⟨not_barrier_of_digits hd.2, not_barrier_of_exponent hx⟩⟩ c hc)
  | .exponentFloat, hs =>
    obtain ⟨w, hw, x, hx, rfl⟩ := hs
    exact absurd hbarrier (List.forall_mem_append.2 ⟨not_barrier_of_digits hw.2,
      not_barrier_of_exponent (.inl hx)⟩ c hc)
  | .punct sign, hs =>
    obtain rfl : s = sign.text.toList := hs
    cases sign
    case arrow =>
      have hnone : ∀ c ∈ ['-', '>'], ¬ Barrier c := by simp [Barrier]
      exact absurd hbarrier (hnone c hc)
    all_goals exact .inr (.inr (.inr rfl))

/-! ## Replacing the text behind a token -/

section Tokens

variable {t : Token} {l : List Char}

theorem Scans.spelledAs {z : List Char} (h : Scans (.token t) l z) : t.SpelledAs l :=
  h.fits_or_unscannable.resolve_right (by rintro ⟨⟨⟩, -⟩)

/-- A token is no part of blanks. -/
theorem Token.SpelledAs.append_not_blanks (h : t.SpelledAs l) (hne : l ≠ []) (w : List Char) :
    l ++ w ∉ blanks.language := by
  intro hblanks
  have hl : l ∈ blanks.language := ⟨hne, fun c hc => hblanks.2 c (List.mem_append_left w hc)⟩
  have hfits : LexemeKind.Fits l (.token t) := h
  have hskip : LexemeKind.Fits l .skip := .inl hl
  exact nomatch hfits.unique hskip

/-- A token is no part of a string, if it is not the whole of it: without its closing mark, a string
is no token. -/
theorem Token.SpelledAs.append_not_string (h : t.SpelledAs l) (hne : l ≠ []) {w : List Char}
    (hw : w ≠ []) : l ++ w ∉ Pattern.string.language := by
  intro hstring
  obtain ⟨content, hcontent, heq⟩ := mem_string.1 hstring
  obtain ⟨quote, l, rfl⟩ := List.exists_cons_of_ne_nil hne
  rw [List.cons_append, List.cons.injEq] at heq
  obtain ⟨rfl, htail⟩ := heq
  have hprefix : l <+: content ++ ['"'] := ⟨w, htail⟩
  rcases List.prefix_concat_iff.1 hprefix with hwhole | ⟨v, rfl⟩
  · rw [← hwhole] at htail
    exact hw (List.append_right_eq_self.1 htail)
  · have hopen : l ∈ quotable := fun c hc => hcontent c (List.mem_append_left v hc)
    have hscan := scan_quote_open hopen (z := []) (by simp)
    have hfits : LexemeKind.Fits ('"' :: l) (.token t) := h
    exact nomatch (hfits.scans.unique (.intro hscan) rfl).1

/-- What starts a comment has two slashes and nothing else, or it is a comment. -/
theorem comment_of_append {v : List Char} {d : Char} {w : List Char}
    (h : v ++ d :: w ∈ comment.language) : v ++ [d] ⊆ ['/', '/'] ∨ v ∈ comment.language := by
  obtain ⟨text, heq, hline⟩ := mem_comment.1 h
  match v, heq with
  | [], heq =>
    rw [List.nil_append, List.cons.injEq] at heq
    exact .inl (by simp [heq.1])
  | [first], heq =>
    rw [List.cons_append, List.nil_append, List.cons.injEq, List.cons.injEq] at heq
    exact .inl (by simp [heq.1, heq.2.1])
  | first :: second :: v, heq =>
    rw [List.cons_append, List.cons_append, List.cons.injEq, List.cons.injEq] at heq
    obtain ⟨rfl, rfl, rfl⟩ := heq
    exact .inr (mem_comment.2 ⟨v, rfl, fun hv => hline (List.mem_append_left _ hv)⟩)

/-- What starts with a token and has a barrier in it is no comment. -/
theorem Scans.append_not_comment {u z w : List Char} {c d : Char}
    (h : Scans (.token t) l (u ++ z)) (hc : c ∈ l ++ u ++ [d]) (hbarrier : Barrier c) :
    l ++ u ++ d :: w ∉ comment.language := by
  intro hcomment
  rcases comment_of_append hcomment with hslashes | hkept
  · have hnone : ∀ c ∈ ['/', '/'], ¬ Barrier c := by simp [Barrier]
    exact hnone c (hslashes hc) hbarrier
  · -- Then the token would be a comment.
    have hlength := (h.longest (b := z) hkept (List.append_assoc ..)).2
    rw [List.length_append] at hlength
    obtain rfl : u = [] := List.length_eq_zero_iff.1 (by omega)
    rw [List.append_nil] at hkept
    have hfits : LexemeKind.Fits l (.token t) := h.spelledAs
    have hskip : LexemeKind.Fits l .skip := .inr hkept
    exact nomatch hfits.unique hskip

/-- No pattern goes on from a token beyond a barrier. -/
theorem Scans.not_mem_of_barrier {u z w : List Char} {c d : Char} (h : Scans (.token t) l (u ++ z))
    (hc : c ∈ l ++ u ++ [d]) (hbarrier : Barrier c) (p : Pattern) :
    l ++ u ++ d :: w ∉ p.language := by
  intro hs
  have hmem : c ∈ l ++ u ++ d :: w := by
    rw [List.append_cons]
    exact List.mem_append_left w hc
  rcases Pattern.of_barrier hs hmem hbarrier with rfl | rfl | rfl | hlength
  · rw [List.append_assoc] at hs
    exact h.spelledAs.append_not_blanks h.ne_nil _ hs
  · exact h.append_not_comment hc hbarrier hs
  · rw [List.append_assoc] at hs
    have hne : u ++ d :: w ≠ [] := List.append_ne_nil_of_right_ne_nil u (List.cons_ne_nil d w)
    exact h.spelledAs.append_not_string h.ne_nil hne hs
  · have hpos := List.length_pos_iff.2 h.ne_nil
    simp only [List.length_append, List.length_cons] at hlength
    omega

/-- **A token stays what it is when the text behind it is replaced**, unless it could go on into the
new text. -/
theorem Scans.replace_behind {u z z' : List Char} (h : Scans (.token t) l (u ++ z))
    (hbarrier : ∀ d ∈ z'.head?, ∃ c ∈ l ++ u ++ [d], Barrier c) :
    Scans (.token t) l (u ++ z') := by
  refine scans_of_fits h.spelledAs fun p s b hs heq => ?_
  -- What does not go beyond the text that is kept is not longer.
  have kept {w : List Char} (hsplit : l ++ u = s ++ w) : s.length ≤ l.length :=
    (h.longest (b := w ++ z) hs (by rw [← List.append_assoc, ← hsplit, List.append_assoc])).2
  rw [← List.append_assoc] at heq
  rcases List.append_eq_append_iff.1 heq with ⟨w, hw, -⟩ | ⟨w, rfl, rfl⟩
  · exact kept hw
  cases w with
  | nil => exact kept (w := []) (by simp)
  | cons d w =>
    obtain ⟨c, hc, hbarrier⟩ := hbarrier d rfl
    exact absurd hs (h.not_mem_of_barrier hc hbarrier p)

/-- A token in front of a text that no token goes on into. -/
theorem Token.SpelledAs.scans {z : List Char} (h : t.SpelledAs l) (hz : ∀ d ∈ z.head?, Barrier d) :
    Scans (.token t) l z := by
  have hfits : LexemeKind.Fits l (.token t) := h
  have hscans : Scans (.token t) l ([] ++ []) := hfits.scans
  exact hscans.replace_behind fun d hd => ⟨d, by simp, hz d hd⟩

end Tokens

/-! ## Filler -/

/-- Blanks and whole comments, each up to the end of its line. -/
inductive Filler : List Char → Prop where
  | nil : Filler []
  | blank {c : Char} {g : List Char} (hc : c ∈ [' ', '\t', '\r', '\n', '\x0c']) (hg : Filler g) :
      Filler (c :: g)
  | comment {text g : List Char} (htext : '\n' ∉ text) (hg : Filler g) :
      Filler ('/' :: '/' :: (text ++ '\n' :: g))

/-- Filler that is not empty ends with a blank. -/
theorem Filler.eq_nil_or_concat {g : List Char} (h : Filler g) :
    g = [] ∨ ∃ g' c, g = g' ++ [c] ∧ Barrier c := by
  induction h with
  | nil => exact .inl rfl
  | @blank c g hc hg ih =>
    rcases ih with rfl | ⟨g', d, rfl, hd⟩
    · exact .inr ⟨[], c, rfl, barrier_of_blank hc⟩
    · exact .inr ⟨c :: g', d, rfl, hd⟩
  | @comment text g htext hg ih =>
    rcases ih with rfl | ⟨g', d, rfl, hd⟩
    · exact .inr ⟨'/' :: '/' :: text, '\n', rfl, by decide⟩
    · exact .inr ⟨'/' :: '/' :: (text ++ '\n' :: g'), d, by simp, hd⟩

/-- The gap in front of a text that does not start with a new line is filler. -/
theorem Gap.filler {behind gap : List Char} (h : Gap behind gap)
    (hbehind : ∃ c ∈ behind.head?, c ≠ '\n') : Filler gap := by
  induction h with
  | nil => exact .nil
  | blank hc _ ih => exact .blank hc ih
  | @comment text gap htext hline _ ih =>
    cases ih with
    | nil =>
      obtain ⟨c, hc, hne⟩ := hbehind
      exact absurd (hline c hc) hne
    | @blank c g _ hg =>
      obtain rfl := hline c rfl
      exact .comment htext hg
    | comment => exact absurd (hline '/' rfl) (by decide)

theorem Filler.gap {behind g : List Char} (h : Filler g) : Gap behind g := by
  induction h with
  | nil => exact .nil
  | blank hc _ ih => exact .blank hc ih
  | comment htext _ ih => exact .comment htext (by simp) (.blank (by simp) ih)

/-- Only the first character behind a gap matters. -/
theorem Gap.congr {behind behind' gap : List Char} (h : Gap behind gap)
    (hhead : behind'.head? = behind.head?) : Gap behind' gap := by
  induction h with
  | nil => exact .nil
  | blank hc _ ih => exact .blank hc ih
  | comment htext hline _ ih =>
    refine .comment htext ?_ ih
    rwa [List.head?_append, hhead, ← List.head?_append]

/-! ## Gaps make no difference -/

section Lexes

variable {ts : List Token}

theorem lexes_blanks {a text : List Char} (ha : ∀ c ∈ a, isSpace c = true) (h : Lexes text ts) :
    Lexes (a ++ text) ts := by
  induction a with
  | nil => exact h
  | cons c a ih =>
    rw [List.forall_mem_cons] at ha
    exact .space ha.1 (ih ha.2)

/-- A blank in front of a text makes no difference. -/
theorem lexes_blank {c : Char} {text : List Char} (hc : isSpace c = true) :
    Lexes (c :: text) ts ↔ Lexes text ts := by
  refine ⟨fun h => ?_, .space hc⟩
  obtain ⟨a, z, rfl, htake, ha, -⟩ := exists_takeWhile isSpace text
  have hscan : scan c (a ++ z) = (.skip, a.length) := by rw [scan_of_isSpace hc, htake]
  cases h with
  | skip hscan' hrest =>
    rw [hscan] at hscan'
    cases hscan'
    rw [List.drop_left] at hrest
    exact lexes_blanks ha hrest
  | token hscan' =>
    rw [hscan] at hscan'
    cases hscan'

/-- A comment in front of the rest of a text makes no difference. -/
theorem lexes_comment {text rest : List Char} (htext : '\n' ∉ text)
    (hline : ∀ c ∈ rest.head?, c = '\n') :
    Lexes ('/' :: '/' :: (text ++ rest)) ts ↔ Lexes rest ts := by
  have htake : (text ++ rest).takeWhile (· ≠ '\n') = text := by
    rw [List.takeWhile_append_of_pos fun c hc => by simpa using ne_of_mem_of_not_mem hc htext]
    cases rest with
    | nil => simp
    | cons c rest => simp [hline c rfl]
  have hscan := scan_comment (text ++ rest)
  rw [htake] at hscan
  have hdrop : ('/' :: (text ++ rest)).drop (text.length + 1) = rest := by
    rw [List.drop_succ_cons, List.drop_left]
  constructor
  · intro h
    cases h with
    | skip hscan' hrest =>
      rw [hscan] at hscan'
      cases hscan'
      exact hdrop ▸ hrest
    | token hscan' =>
      rw [hscan] at hscan'
      cases hscan'
  · exact fun h => .skip hscan (hdrop.symm ▸ h)

/-- **A gap in front of a text makes no difference.** -/
theorem lexes_gap {behind gap : List Char} (hgap : Gap behind gap) :
    Lexes (gap ++ behind) ts ↔ Lexes behind ts := by
  induction hgap with
  | nil => exact Iff.rfl
  | blank hc _ ih => exact (lexes_blank (isSpace_iff.2 hc)).trans ih
  | @comment comment gap htext hline _ ih =>
    have hassoc : '/' :: '/' :: (comment ++ gap) ++ behind =
        '/' :: '/' :: (comment ++ (gap ++ behind)) := by simp
    rw [hassoc, lexes_comment htext hline]
    exact ih

/-- A token in front of a text. -/
theorem Scans.lexes {t : Token} {l z : List Char} (h : Scans (.token t) l z) (hz : Lexes z ts) :
    Lexes (l ++ z) (t :: ts) := by
  cases h with
  | @intro _ l _ hscan =>
    have hrest : Lexes ((l ++ z).drop l.length) ts := by rwa [List.drop_left]
    exact .token hscan hrest

end Lexes

/-! ## Replacing the text behind some tokens -/

/-- No token goes on from one text into another. -/
def Parted (x z : List Char) : Prop :=
  (∀ c ∈ x.getLast?, Barrier c) ∨ ∀ d ∈ z.head?, Barrier d

theorem Parted.right {x y z : List Char} (h : Parted (x ++ y) z) : Parted y z := by
  refine h.imp_left fun h c hc => h c ?_
  rw [List.getLast?_append, hc]
  rfl

/-- A barrier that no token goes beyond. -/
theorem Parted.exists_barrier {x z : List Char} (h : Parted x z) (hx : x ≠ []) :
    ∀ d ∈ z.head?, ∃ c ∈ x ++ [d], Barrier c := by
  intro d hd
  rcases h with h | h
  · exact ⟨x.getLast hx, List.mem_append_left _ (List.getLast_mem hx),
      h _ (List.getLast?_eq_some_getLast hx)⟩
  · exact ⟨d, by simp, h d hd⟩

/-- A text whose items are all tokens splits into these. -/
theorem Tiles.lexes {front text : List Char} {list : List Item} (h : Tiles front text list)
    (hlist : ∀ i ∈ list, i.token?.isSome = true) : Lexes text (Item.tokens list) := by
  induction h with
  | @gap front gap hgap =>
    have hnil := (lexes_gap hgap).2 .nil
    rwa [List.append_nil] at hnil
  | @item front gap behind i rest hgap hstart hposition hscans hrest ih =>
    obtain ⟨hi, hrest⟩ := List.forall_mem_cons.1 hlist
    obtain ⟨t, ht⟩ := Option.isSome_iff_exists.1 hi
    rw [Item.kind, ht] at hscans
    rw [Item.tokens, List.filterMap_cons_some ht]
    exact (lexes_gap hgap).2 (hscans.lexes (ih hrest))

/-- A text behind `front` in two parts, the first of which ends with the last of some tokens. -/
structure Cut (front a z : List Char) (before after : List Item) : Prop where
  stop : String.utf8Len (front ++ a) = Item.lastStop (String.utf8Len front) before
  tiles : Tiles (front ++ a) z after
  replace : ∀ {u z₀ z' : List Char} {ts : List Token}, z = u ++ z₀ → Parted (a ++ u) z' →
    Lexes (u ++ z') ts → Lexes (a ++ u ++ z') (Item.tokens before ++ ts)

/-- **The text behind some tokens may be replaced**, where no token goes on into the new text. -/
theorem Tiles.exists_cut {front text : List Char} {list : List Item} (h : Tiles front text list)
    {before after : List Item} (hlist : list = before ++ after)
    (hbefore : ∀ i ∈ before, i.token?.isSome = true) :
    ∃ a z, text = a ++ z ∧ Cut front a z before after := by
  induction before generalizing front text list with
  | nil =>
    refine ⟨[], text, rfl, ?_, ?_, fun _ _ h => h⟩
    all_goals rw [List.append_nil]
    · rfl
    · rwa [hlist] at h
  | cons i before ih =>
    subst hlist
    obtain ⟨hi, hbefore⟩ := List.forall_mem_cons.1 hbefore
    obtain ⟨t, ht⟩ := Option.isSome_iff_exists.1 hi
    cases h with
    | @item _ gap behind _ _ hgap hstart hposition hscans hrest =>
      obtain ⟨a, z, rfl, cut⟩ := ih hrest rfl hbefore
      have hkind : i.kind = .token t := by rw [Item.kind, ht]
      have hstop : String.utf8Len (front ++ gap ++ i.text) = i.stop := by
        rw [String.utf8Len_append, ← hstart, Item.stop]
      have hassoc : front ++ (gap ++ (i.text ++ a)) = front ++ gap ++ i.text ++ a := by simp
      refine ⟨gap ++ (i.text ++ a), z, by simp, ?_, ?_, ?_⟩
      · rw [hassoc, cut.stop, hstop, Item.lastStop_cons]
      · rw [hassoc]
        exact cut.tiles
      · intro u z₀ z' ts hz hparted hts
        subst hz
        have htext : gap ++ (i.text ++ a) ++ u = gap ++ (i.text ++ (a ++ u)) := by simp
        rw [htext] at hparted ⊢
        have hrest' := cut.replace rfl hparted.right.right hts
        -- The token is kept, and so is the gap in front of it.
        rw [hkind, ← List.append_assoc] at hscans
        have hbarrier := hparted.right.exists_barrier (by simp [hscans.ne_nil])
        have htoken := (hscans.replace_behind hbarrier).lexes hrest'
        have hgap' : Gap (i.text ++ (a ++ u ++ z')) gap := by
          refine hgap.congr ?_
          rw [List.head?_append_of_ne_nil _ hscans.ne_nil,
            List.head?_append_of_ne_nil _ hscans.ne_nil]
        rw [Item.tokens, List.filterMap_cons_some ht, List.append_assoc, List.append_assoc]
        exact (lexes_gap hgap').2 htoken

end FlatQasm
