import FlatQasm.Proofs.Outcome
import FlatQasm.Proofs.Source.Scanning

/-!
# The items of a source text

The items are the tokens and the errors of a text, each with its bytes and its position.  Together
with the blanks and comments between them they make up the whole text.

## Main definitions

* `Item`, `items` — a token or an error with its place, and those of a text.
* `Gap` — blanks and comments.
* `Tiles` — a text is made of items, each at its place, with gaps between them.

## Main statements

* `tokens_eq_mapM_items` — what the parser gets are the items.
* `tiles_items` — a text is made of its items.
* `items_lossless` — nothing of a text is lost, and each item is the longest match.
-/

namespace FlatQasm

/-- A token of a source text, or an error, with its place. -/
structure Item where
  /-- The number of bytes in front of it. -/
  start : ℕ
  /-- The position of its first character. -/
  position : Position
  /-- The token; an error has none. -/
  token? : Option Token
  text : List Char

namespace Item

/-- The number of bytes up to its end. -/
def stop (i : Item) : ℕ := i.start + String.utf8Len i.text

/-- What the parser gets of an item. -/
def located (i : Item) : Except ImportError Located :=
  match i.token? with
  | some t => .ok ⟨t, i.position⟩
  | none => .error (.invalidLexeme i.position i.text)

theorem located_eq_ok {i : Item} {t : Located} :
    i.located = .ok t ↔ i.token? = some t.token ∧ i.position = t.position := by
  obtain ⟨start, position, token?, text⟩ := i
  obtain ⟨token, position'⟩ := t
  cases token? <;> simp [located]

theorem located_eq_error {i : Item} {e : ImportError} :
    i.located = .error e ↔ i.token? = none ∧ e = .invalidLexeme i.position i.text := by
  obtain ⟨start, position, token?, text⟩ := i
  cases token? <;> simp [located, eq_comm]

/-- What an item is as a lexeme. -/
def kind (i : Item) : LexemeKind :=
  match i.token? with
  | some t => .token t
  | none => .invalid

/-- The tokens among some items. -/
def tokens (list : List Item) : List Token := list.filterMap token?

@[simp] theorem tokens_append (before after : List Item) :
    tokens (before ++ after) = tokens before ++ tokens after := List.filterMap_append

theorem eq_nil_of_tokens_eq_nil {list : List Item}
    (hlist : ∀ i ∈ list, i.token?.isSome = true) (h : tokens list = []) : list = [] := by
  cases list with
  | nil => rfl
  | cons i rest =>
    have hnone := List.filterMap_eq_nil_iff.1 h i List.mem_cons_self
    have hi := hlist i List.mem_cons_self
    rw [hnone] at hi
    cases hi

theorem head?_tokens {list : List Item} (hlist : ∀ i ∈ list, i.token?.isSome = true) :
    (tokens list).head? = list.head?.bind token? := by
  cases list with
  | nil => rfl
  | cons i rest =>
    obtain ⟨t, ht⟩ := Option.isSome_iff_exists.1 (hlist i List.mem_cons_self)
    rw [tokens, List.filterMap_cons_some ht]
    exact ht.symm

/-- Where the last of some items ends, and the next gap starts. -/
def lastStop (start : ℕ) (before : List Item) : ℕ := (before.getLast?.map stop).getD start

theorem lastStop_concat (start : ℕ) (before : List Item) (i : Item) :
    lastStop start (before ++ [i]) = i.stop := by
  rw [lastStop, List.getLast?_concat]
  rfl

theorem lastStop_cons (start : ℕ) (i : Item) (before : List Item) :
    lastStop start (i :: before) = lastStop i.stop before := by
  rw [lastStop, lastStop, List.getLast?_cons]
  cases before.getLast? <;> rfl

end Item

/-- The items among some lexemes, the first of which stands behind `start` bytes. -/
def Lexeme.items (start : ℕ) (p : Position) : List Lexeme → List Item
  | [] => []
  | lexeme :: rest =>
    let others := items (start + String.utf8Len lexeme.text) (p.after lexeme.text) rest
    match lexeme.kind with
    | .skip => others
    | .token t => ⟨start, p, some t, lexeme.text⟩ :: others
    | .invalid => ⟨start, p, none, lexeme.text⟩ :: others

/-- The items of a source text. -/
def items (source : String) : List Item := Lexeme.items 0 .start (lexemes source.toList)

theorem Lexeme.tokens_locate (start : ℕ) (p : Position) (list : List Lexeme) :
    Lexeme.tokens (Lexeme.locate p list) = (Lexeme.items start p list).mapM Item.located := by
  induction list generalizing start p with
  | nil => rfl
  | cons lexeme rest ih =>
    have hrest := ih (start + String.utf8Len lexeme.text) (p.after lexeme.text)
    rw [Lexeme.locate, Lexeme.tokens, Lexeme.items]
    cases lexeme.kind with
    | skip => exact hrest
    | token t =>
      dsimp only
      rw [hrest, List.mapM_cons]
      cases List.mapM Item.located _ <;> rfl
    | invalid => rfl

/-- **What the parser gets are the items**, up to the first error. -/
theorem tokens_eq_mapM_items (source : String) :
    tokens source = (items source).mapM Item.located :=
  Lexeme.tokens_locate 0 .start (lexemes source.toList)

theorem tokens_eq_ok {source : String} {ts : List Located} : tokens source = .ok ts ↔
    List.Forall₂ (fun i t => i.token? = some t.token ∧ i.position = t.position)
      (items source) ts := by
  rw [tokens_eq_mapM_items, mapM_eq_ok]
  simp only [Item.located_eq_ok]

/-- Items that are what the parser gets are tokens. -/
theorem Item.tokens_eq_map {list : List Item} {ts : List Located}
    (h : List.Forall₂ (fun i t => i.token? = some t.token ∧ i.position = t.position) list ts) :
    Item.tokens list = ts.map Located.token ∧ ∀ i ∈ list, i.token?.isSome = true := by
  induction h with
  | nil => exact ⟨rfl, List.forall_mem_nil _⟩
  | cons hi _ ih =>
    refine ⟨?_, List.forall_mem_cons.2 ⟨by rw [hi.1]; rfl, ih.2⟩⟩
    rw [Item.tokens, List.filterMap_cons_some hi.1, List.map_cons, ← ih.1, Item.tokens]

/-! ## Between the items -/

/-- Blanks and comments in front of a text.  A comment goes up to the end of its line. -/
inductive Gap (behind : List Char) : List Char → Prop where
  | nil : Gap behind []
  | blank {c : Char} {gap : List Char} (hc : c ∈ [' ', '\t', '\r', '\n', '\x0c'])
      (hgap : Gap behind gap) : Gap behind (c :: gap)
  | comment {text gap : List Char} (htext : '\n' ∉ text)
      (hline : ∀ c ∈ (gap ++ behind).head?, c = '\n') (hgap : Gap behind gap) :
      Gap behind ('/' :: '/' :: (text ++ gap))

/-- Whatever lies between two items is a gap. -/
theorem Scans.gap {l gap behind : List Char} (h : Scans .skip l (gap ++ behind))
    (hgap : Gap behind gap) : Gap behind (l ++ gap) := by
  have hfits := h.fits_or_unscannable.resolve_right (by rintro ⟨⟨⟩, -⟩)
  rcases hfits with ⟨-, hblanks⟩ | hcomment
  · clear h
    induction l with
    | nil => exact hgap
    | cons c l ih =>
      rw [List.forall_mem_cons] at hblanks
      exact .blank hblanks.1 (ih hblanks.2)
  · obtain ⟨text, rfl, htext⟩ := Pattern.mem_comment.1 hcomment
    refine .comment htext (fun c hc => ?_) hgap
    -- Otherwise the comment would go on.
    by_contra hne
    obtain ⟨rest, hrest⟩ := List.head?_eq_some_iff.1 hc
    have hmore : '/' :: '/' :: (text ++ [c]) ∈ Pattern.comment.language := by
      refine Pattern.mem_comment.2 ⟨text ++ [c], rfl, ?_⟩
      simpa [htext, eq_comm] using hne
    have hlongest := (h.longest (b := rest) hmore (by simp [hrest])).2
    simp at hlongest

/-- A text behind `front` is made of items, each at its place, with gaps between them. -/
inductive Tiles : (front text : List Char) → List Item → Prop where
  | gap {front gap : List Char} (hgap : Gap [] gap) : Tiles front gap []
  | item {front gap behind : List Char} {i : Item} {rest : List Item}
      (hgap : Gap (i.text ++ behind) gap) (hstart : i.start = String.utf8Len (front ++ gap))
      (hposition : i.position = Position.start.after (front ++ gap))
      (hscans : Scans i.kind i.text behind) (hrest : Tiles (front ++ gap ++ i.text) behind rest) :
      Tiles front (gap ++ (i.text ++ behind)) (i :: rest)

namespace Tiles

variable {front text : List Char} {list : List Item}

/-- A gap becomes longer. -/
theorem skip {l : List Char} (hscans : Scans .skip l text) (h : Tiles (front ++ l) text list) :
    Tiles front (l ++ text) list := by
  cases h with
  | gap hgap =>
    exact .gap ((List.append_nil text ▸ hscans).gap hgap)
  | item hgap hstart hposition hscans' hrest =>
    rw [← List.append_assoc]
    refine .item (hscans.gap hgap) ?_ ?_ hscans' ?_
    · rw [hstart, List.append_assoc]
    · rw [hposition, List.append_assoc]
    · rwa [← List.append_assoc]

end Tiles

theorem Lexeme.tiles_items (front text : List Char) :
    Tiles front text
      (Lexeme.items (String.utf8Len front) (Position.start.after front) (lexemes text)) := by
  induction hn : text.length using Nat.strong_induction_on generalizing front text with
  | _ n ih =>
    cases text with
    | nil =>
      rw [lexemes]
      exact .gap .nil
    | cons c rest =>
      obtain ⟨kind, l, z, hsplit, hscans, -⟩ := exists_scans c rest
      have hpos := List.length_pos_iff.2 hscans.ne_nil
      rw [hsplit, List.length_append] at hn
      have hrest := ih z.length (by omega) (front ++ l) z rfl
      rw [hsplit, hscans.lexemes_eq, Lexeme.items]
      rw [String.utf8Len_append, Position.after_append] at hrest
      cases kind with
      | skip => exact .skip hscans hrest
      | token t =>
        refine @Tiles.item _ [] _ ⟨_, _, some t, l⟩ _ .nil ?_ ?_ hscans ?_
        all_goals rw [List.append_nil]
        exact hrest
      | invalid =>
        refine @Tiles.item _ [] _ ⟨_, _, none, l⟩ _ .nil ?_ ?_ hscans ?_
        all_goals rw [List.append_nil]
        exact hrest

/-- **A text is made of its items.** -/
theorem tiles_items (source : String) : Tiles [] source.toList (items source) :=
  Lexeme.tiles_items [] source.toList

namespace Tiles

variable {front text : List Char} {list : List Item}

/-- An item at its place, with what stands in front of it and behind it. -/
theorem exists_item (h : Tiles front text list) {before after : List Item} {i : Item}
    (hlist : list = before ++ i :: after) :
    ∃ a gap behind, text = a ++ (gap ++ (i.text ++ behind)) ∧
      String.utf8Len (front ++ a) = Item.lastStop (String.utf8Len front) before ∧
      Gap (i.text ++ behind) gap ∧ i.start = String.utf8Len (front ++ a ++ gap) ∧
      i.position = Position.start.after (front ++ a ++ gap) ∧ Scans i.kind i.text behind ∧
      Tiles (front ++ a ++ gap ++ i.text) behind after := by
  induction before generalizing front text list with
  | nil =>
    subst hlist
    cases h with
    | @item _ gap behind _ _ hgap hstart hposition hscans hrest =>
      refine ⟨[], gap, behind, rfl, ?_, hgap, ?_, ?_, hscans, ?_⟩
      all_goals rw [List.append_nil]
      · rfl
      · exact hstart
      · exact hposition
      · exact hrest
  | cons j before ih =>
    subst hlist
    cases h with
    | @item _ gap behind _ _ hgap hstart hposition hscans hrest =>
      obtain ⟨a, gap', behind', rfl, hstop, hgap', hstart', hposition', hscans', hrest'⟩ :=
        ih hrest rfl
      have hassoc : front ++ (gap ++ (j.text ++ a)) = front ++ gap ++ j.text ++ a := by simp
      have hj : String.utf8Len (front ++ gap ++ j.text) = j.stop := by
        rw [String.utf8Len_append, ← hstart, Item.stop]
      refine ⟨gap ++ (j.text ++ a), gap', behind', by simp, ?_, hgap', ?_, ?_, hscans', ?_⟩
      all_goals rw [hassoc]
      · rw [hstop, hj, Item.lastStop_cons]
      · exact hstart'
      · exact hposition'
      · exact hrest'

/-- What stands behind the last item. -/
theorem exists_gap (h : Tiles front text list) :
    ∃ a gap, text = a ++ gap ∧
      String.utf8Len (front ++ a) = Item.lastStop (String.utf8Len front) list ∧ Gap [] gap := by
  induction h with
  | @gap front gap hgap => exact ⟨[], gap, rfl, by rw [List.append_nil]; rfl, hgap⟩
  | @item front gap behind i rest hgap hstart hposition hscans hrest ih =>
    obtain ⟨a, gap', rfl, hstop, hgap'⟩ := ih
    have hassoc : front ++ (gap ++ (i.text ++ a)) = front ++ gap ++ i.text ++ a := by simp
    have hi : String.utf8Len (front ++ gap ++ i.text) = i.stop := by
      rw [String.utf8Len_append, ← hstart, Item.stop]
    refine ⟨gap ++ (i.text ++ a), gap', by simp, ?_, hgap'⟩
    rw [hassoc, hstop, hi, Item.lastStop_cons]

/-- Each item starts behind the one before it. -/
theorem pairwise (h : Tiles front text list) :
    (∀ i ∈ list, String.utf8Len front ≤ i.start) ∧ list.Pairwise fun i j => i.stop ≤ j.start := by
  induction h with
  | gap => exact ⟨List.forall_mem_nil _, .nil⟩
  | @item front gap behind i rest hgap hstart hposition hscans hrest ih =>
    have hi : String.utf8Len (front ++ gap ++ i.text) = i.stop := by
      rw [String.utf8Len_append, ← hstart, Item.stop]
    rw [hi] at ih
    have hle : String.utf8Len front ≤ i.start := by
      rw [hstart, String.utf8Len_append]
      exact Nat.le_add_right _ _
    have hstop : i.start ≤ i.stop := Nat.le_add_right _ _
    exact ⟨List.forall_mem_cons.2 ⟨hle, fun j hj => hle.trans (hstop.trans (ih.1 j hj))⟩,
      List.pairwise_cons.2 ⟨ih.1, ih.2⟩⟩

end Tiles

/-- What an item is with the text behind it: a token that the longest match of a pattern is spelled
like, or an error where no pattern matches. -/
def Item.Matches (i : Item) (behind : List Char) : Prop :=
  match i.token? with
  | some t => t.SpelledAs i.text ∧ ∀ (p : Pattern) (s : List Char), s ∈ p.language →
      s <+: i.text ++ behind → s.length ≤ i.text.length
  | none => Unscannable i.text behind ∧ ∀ (p : Pattern) (s : List Char), s ∈ p.language →
      ¬ s <+: i.text ++ behind

theorem Item.matches_of_scans {i : Item} {behind : List Char} (h : Scans i.kind i.text behind) :
    i.Matches behind := by
  have hspelled := h.fits_or_unscannable
  obtain ⟨start, position, token?, text⟩ := i
  cases token? with
  | some t =>
    refine ⟨hspelled.resolve_right (by rintro ⟨⟨⟩, -⟩), fun p s hs hprefix => ?_⟩
    obtain ⟨b, hb⟩ := hprefix
    exact (h.longest hs hb).2
  | none =>
    refine ⟨(hspelled.resolve_left id).2, fun p s hs hprefix => ?_⟩
    obtain ⟨b, hb⟩ := hprefix
    exact (h.longest hs hb).1 rfl

/-- **Splitting a text is lossless, and takes the longest match.**  The items are the ones that the
parser gets.  They are not empty, each starts behind the one before it, between them lie blanks and
comments only, and each one is a token that the longest match is spelled like, or an error where
nothing matches. -/
theorem items_lossless (source : String) :
    tokens source = (items source).mapM Item.located ∧
    (items source).Pairwise (fun i j => i.stop ≤ j.start) ∧
    (∀ before i after, items source = before ++ i :: after →
      ∃ front gap behind, source.toList = front ++ gap ++ i.text ++ behind ∧
        String.utf8Len front = Item.lastStop 0 before ∧ Gap (i.text ++ behind) gap ∧
        String.utf8Len (front ++ gap) = i.start ∧ i.start < i.stop ∧ i.Matches behind) ∧
    ∃ front gap, source.toList = front ++ gap ∧
      String.utf8Len front = Item.lastStop 0 (items source) ∧ Gap [] gap := by
  have htiles := tiles_items source
  refine ⟨tokens_eq_mapM_items source, htiles.pairwise.2, ?_, htiles.exists_gap⟩
  intro before i after hitems
  obtain ⟨front, gap, behind, htext, hstop, hgap, hstart, -, hscans, -⟩ :=
    htiles.exists_item hitems
  refine ⟨front, gap, behind, by simp [htext], hstop, hgap, hstart.symm, ?_,
    Item.matches_of_scans hscans⟩
  have hpos : String.utf8Len i.text ≠ 0 := fun h => hscans.ne_nil (String.utf8Len_eq_zero.1 h)
  rw [Item.stop]
  omega

end FlatQasm
