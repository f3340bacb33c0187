import FlatQasm.Proofs.Grammar.TopLevel
import FlatQasm.Proofs.Program.Agreement
import FlatQasm.Proofs.Source.Filler

/-!
# Text that makes no difference

Blanks and whole comments may be put in at either end of a token, as long as a blank comes first.
Texts with the same tokens stand for the same circuit, or they fail with the same error at another
place.  An `include` may be put in wherever a statement may start, behind the header.

## Main definitions

* `ImportError.unplaced` — an error without its position.
* `tokenSequence` — the tokens of a text without their positions.
* `TokenEnd`, `BetweenStatements` — places where a text is split in two.

## Main statements

* `tokenSequence_insert` — blanks and comments at an end of a token.
* `Circuit.ofSource_congr` — texts with the same tokens.
* `Circuit.ofSource_include` — an `include` between two statements.
* `layout_irrelevant` — all three.
-/

namespace FlatQasm

open FlatQasm.Grammar (TopLevel)

/-- An error without its position. -/
def ImportError.unplaced (e : ImportError) : ImportError := e.mapPosition fun _ => .start

/-- The tokens of a text without their positions, or the error of the scanner without its own. -/
def tokenSequence (source : String) : Except ImportError (List Token) :=
  ((tokens source).map (List.map Located.token)).mapError ImportError.unplaced

/-- A text is split at one of the ends of a token. -/
structure TokenEnd (source : String) (front behind : List Char) : Prop where
  split : source.toList = front ++ behind
  at_end : ∃ i ∈ items source, String.utf8Len front = i.start ∨ String.utf8Len front = i.stop

/-- A text is split where a statement may start: there may be blanks and whole comments between the
last token in front and the place, and the header is not behind it. -/
inductive BetweenStatements (source : String) : (front behind : List Char) → Prop where
  | intro {a g z : List Char} {before after : List Item} (htext : source.toList = a ++ g ++ z)
      (hitems : items source = before ++ after) (hstop : String.utf8Len a = Item.lastStop 0 before)
      (hgap : Filler g) (htop : TopLevel (Item.tokens before))
      (hheader : before = [] → ∀ i ∈ after.head?, i.token? ≠ some (.keyword .openqasm)) :
      BetweenStatements source (a ++ g) z

/-! ## Blanks and comments -/

/-- Texts in front of which there are as many bytes are the same. -/
theorem eq_of_utf8Len_eq {a a' z z' : List Char} (htext : a ++ z = a' ++ z')
    (hlength : String.utf8Len a = String.utf8Len a') : a = a' ∧ z = z' := by
  rcases List.append_eq_append_iff.1 htext with ⟨w, rfl, rfl⟩ | ⟨w, rfl, rfl⟩
  · rw [String.utf8Len_append] at hlength
    obtain rfl : w = [] := String.utf8Len_eq_zero.1 (by omega)
    exact ⟨(List.append_nil a).symm, rfl⟩
  · rw [String.utf8Len_append] at hlength
    obtain rfl : w = [] := String.utf8Len_eq_zero.1 (by omega)
    exact ⟨List.append_nil a', rfl⟩

theorem tokenSequence_eq_ok {source : String} {us : List Token} :
    tokenSequence source = .ok us ↔
      ∃ ts, tokens source = .ok ts ∧ ts.map Located.token = us := by
  rw [tokenSequence, mapError_eq_ok, map_eq_ok]

theorem Lexes.tokenSequence_eq {text : List Char} {ts : List Token} (h : Lexes text ts) :
    tokenSequence (String.ofList text) = .ok ts := by
  rw [← String.toList_ofList (l := text)] at h
  obtain ⟨located, htokens, hmap⟩ := h.exists_tokens
  rw [tokenSequence, htokens, ← hmap]
  rfl

/-- What starts with a blank is not a part of a token. -/
theorem parted_of_blank {x g : List Char} (hg : ∃ c ∈ g.head?, isSpace c = true) (z : List Char) :
    Parted x (g ++ z) := by
  obtain ⟨c, hc, hspace⟩ := hg
  refine .inr fun d hd => ?_
  rw [List.head?_append, hc] at hd
  cases hd
  exact barrier_of_blank (isSpace_iff.1 hspace)

/-- No token starts with a blank. -/
theorem Scans.exists_not_isSpace {t : Token} {l z : List Char} (h : Scans (.token t) l z) :
    ∃ c ∈ (l ++ z).head?, isSpace c = false := by
  cases h with
  | @intro c l _ hscan =>
    refine ⟨c, rfl, ?_⟩
    by_contra hspace
    rw [Bool.not_eq_false] at hspace
    rw [scan_of_isSpace hspace] at hscan
    cases hscan

section Insert

variable {source : String} {a z g : List Char} {before after : List Item} {i : Item}
  (htext : source.toList = a ++ z) (hall : ∀ j ∈ items source, j.token?.isSome = true)
  (hg : Filler g) (hblank : ∃ c ∈ g.head?, isSpace c = true)
include htext hall hg hblank

/-- In front of a token, the gap becomes longer. -/
theorem lexes_insert_start (hitems : items source = before ++ i :: after)
    (hstart : String.utf8Len a = i.start) :
    Lexes (a ++ g ++ z) (Item.tokens (items source)) := by
  rw [hitems] at hall
  obtain ⟨hbefore, hafter⟩ := List.forall_mem_append.1 hall
  obtain ⟨a', z', htext', cut⟩ := (tiles_items source).exists_cut hitems hbefore
  obtain ⟨hfront, htiles, hreplace⟩ := cut
  have hlexes := htiles.lexes hafter
  cases htiles with
  | @item _ gap behind _ _ hgap hstart' _ hscans _ =>
    have hsplit : a ++ z = a' ++ gap ++ (i.text ++ behind) := by
      rw [← htext, htext', List.append_assoc]
    obtain ⟨rfl, rfl⟩ := eq_of_utf8Len_eq hsplit (hstart.trans hstart')
    obtain ⟨t, ht⟩ := Option.isSome_iff_exists.1 (List.forall_mem_cons.1 hafter).1
    rw [Item.kind, ht] at hscans
    have hfiller : Filler gap := by
      obtain ⟨c, hc, hspace⟩ := hscans.exists_not_isSpace
      refine hgap.filler ⟨c, hc, ?_⟩
      rintro rfl
      cases hspace
    have hinserted := (lexes_gap hfiller.gap).2 ((lexes_gap hg.gap).2 ((lexes_gap hgap).1 hlexes))
    rw [hitems, Item.tokens_append, List.append_assoc (a' ++ gap)]
    exact hreplace rfl (parted_of_blank hblank _) hinserted

/-- Behind a token, no token goes on into the blank. -/
theorem lexes_insert_stop (hitems : items source = before ++ [i] ++ after)
    (hstop : String.utf8Len a = i.stop) :
    Lexes (a ++ g ++ z) (Item.tokens (items source)) := by
  rw [hitems] at hall
  obtain ⟨hbefore, hafter⟩ := List.forall_mem_append.1 hall
  obtain ⟨a', z', htext', cut⟩ := (tiles_items source).exists_cut hitems hbefore
  have hfront := cut.stop
  rw [Item.lastStop_concat] at hfront
  obtain ⟨rfl, rfl⟩ := eq_of_utf8Len_eq (htext.symm.trans htext') (hstop.trans hfront.symm)
  have hinserted := (lexes_gap hg.gap).2 (cut.tiles.lexes hafter)
  rw [hitems, Item.tokens_append]
  have hreplaced := cut.replace (u := []) rfl (parted_of_blank hblank z) hinserted
  rwa [List.append_nil, ← List.append_assoc] at hreplaced

end Insert

/-- **Blanks and comments at an end of a token** make no difference. -/
theorem tokenSequence_insert {source : String} {ts : List Located} (hts : tokens source = .ok ts)
    {a z g : List Char} (hsplit : TokenEnd source a z) (hg : Filler g)
    (hblank : ∃ c ∈ g.head?, isSpace c = true) :
    tokenSequence (String.ofList (a ++ g ++ z)) = .ok (ts.map Located.token) := by
  obtain ⟨htokens, hall⟩ := Item.tokens_eq_map (tokens_eq_ok.1 hts)
  obtain ⟨htext, i, hi, hend⟩ := hsplit
  obtain ⟨before, after, hitems⟩ := List.append_of_mem hi
  rw [← htokens]
  refine Lexes.tokenSequence_eq ?_
  rcases hend with hstart | hstop
  · exact lexes_insert_start htext hall hg hblank hitems hstart
  · exact lexes_insert_stop htext hall hg hblank (by rw [hitems, List.append_cons]) hstop

/-! ## Texts with the same tokens -/

/-- **Texts with the same tokens** stand for the same circuit, or fail with the same error. -/
theorem Circuit.ofSource_congr {source source' : String}
    (h : tokenSequence source = tokenSequence source') (rule : HeaderRule) :
    (ofSource source rule).mapError ImportError.unplaced =
      (ofSource source' rule).mapError ImportError.unplaced := by
  rw [ofSource_eq_bind, ofSource_eq_bind]
  unfold tokenSequence at h
  cases hts : FlatQasm.tokens source with
  | error e =>
    cases hts' : FlatQasm.tokens source' with
    | error e' =>
      rw [hts, hts'] at h
      exact congrArg Except.error (Except.error.inj h)
    | ok ts' =>
      rw [hts, hts'] at h
      cases h
  | ok ts =>
    cases hts' : FlatQasm.tokens source' with
    | error e' =>
      rw [hts, hts'] at h
      cases h
    | ok ts' =>
      rw [hts, hts'] at h
      have hsame := forall₂_of_map_eq (Except.ok.inj h)
      by_cases hne : ts = []
      · subst hne
        rw [List.forall₂_nil_left_iff.1 hsame]
      · exact (agree_ofTokens (fun _ _ h => h) rule hsame fun _ => hne).mapError_eq fun _ _ _ => rfl

/-! ## An `include` between two statements -/

/-- An `include` as it is written. -/
def includeText (name : String) : String := "include \"" ++ name ++ "\";"

theorem lexes_includeText {name : String} (hname : name.toList ∈ Pattern.quotable) {z : List Char}
    {ts : List Token} (h : Lexes z ts) : Lexes ((includeText name).toList ++ z)
      (.keyword .includeFile :: .string name :: .punct .semicolon :: ts) := by
  have hsemicolon : Lexes (';' :: z) (.punct .semicolon :: ts) := .token rfl h
  have hstring : Lexes ('"' :: (name.toList ++ '"' :: ';' :: z))
      (.string name :: .punct .semicolon :: ts) := by
    have hscan := scan_quote_closed hname (';' :: z)
    rw [String.ofList_toList] at hscan
    refine .token hscan ?_
    rw [List.append_cons, ← List.length_singleton (a := '"'), ← List.length_append, List.drop_left]
    exact hsemicolon
  have htext : (includeText name).toList ++ z =
      Keyword.includeFile.text.toList ++ ' ' :: '"' :: (name.toList ++ '"' :: ';' :: z) := by
    simp [includeText, Keyword.text]
  rw [htext]
  exact .keyword .includeFile (apart_cons rfl (by decide)) (.space rfl hstring)

theorem agrees_of_sameKinds {list list' : List Statement} (h : Grammar.SameKinds list list') :
    List.Forall₂ (Statement.Agrees fun _ _ => True) list list' := by
  refine (forall₂_of_map_eq h.symm).imp fun s s' hkind => ⟨hkind, ?_⟩
  exact ⟨⟨.punct .semicolon, s.position⟩, ⟨.punct .semicolon, s'.position⟩, trivial, rfl, rfl⟩

/-- The last item in front of a place. -/
theorem exists_last {source : String} {a z : List Char} (htext : source.toList = a ++ z)
    {before after : List Item} {i : Item} (hitems : items source = before ++ i :: after)
    (hstop : String.utf8Len a = i.stop) : ∃ b, a = b ++ i.text ∧ Scans i.kind i.text z := by
  obtain ⟨a', gap, behind, htext', -, -, hstart, -, hscans, -⟩ :=
    (tiles_items source).exists_item hitems
  have hlength : String.utf8Len a = String.utf8Len (a' ++ gap ++ i.text) := by
    rw [hstop, Item.stop, hstart, String.utf8Len_append (a' ++ gap), List.nil_append]
  have hsplit : a ++ z = a' ++ gap ++ i.text ++ behind := by
    rw [← htext, htext']
    simp
  obtain ⟨rfl, rfl⟩ := eq_of_utf8Len_eq hsplit hlength
  exact ⟨a' ++ gap, rfl, hscans⟩

/-- Behind a statement nothing goes on. -/
theorem parted_of_topLevel {source : String} {a z g : List Char}
    (htext : source.toList = a ++ z) (hg : Filler g) {before after : List Item}
    (hitems : items source = before ++ after) (hbefore : ∀ i ∈ before, i.token?.isSome = true)
    (hstop : String.utf8Len a = Item.lastStop 0 before) (htop : TopLevel (Item.tokens before))
    (z' : List Char) : Parted (a ++ g) z' := by
  refine .inl fun c hc => ?_
  rcases hg.eq_nil_or_concat with rfl | ⟨g', d, rfl, hd⟩
  swap
  · rw [← List.append_assoc, List.getLast?_concat] at hc
    cases hc
    exact hd
  rw [List.append_nil] at hc
  rcases List.eq_nil_or_concat' before with rfl | ⟨before', i, rfl⟩
  · rw [String.utf8Len_eq_zero.1 hstop] at hc
    cases hc
  · rw [Item.lastStop_concat] at hstop
    obtain ⟨b, rfl, hscans⟩ := exists_last htext (by rw [hitems, List.append_assoc]; rfl) hstop
    obtain ⟨t, ht⟩ := Option.isSome_iff_exists.1 (hbefore i (by simp))
    rw [Item.kind, ht] at hscans
    have hlast : (Item.tokens (before' ++ [i])).getLast? = some t := by
      rw [Item.tokens_append, Item.tokens, Item.tokens, List.filterMap_cons_some ht]
      exact List.getLast?_concat
    -- The text of the token is a single character.
    have hspelled := hscans.spelledAs
    rcases htop.ended t hlast with rfl | rfl
    · have htext : i.text = [';'] := hspelled
      rw [htext, List.getLast?_concat] at hc
      cases hc
      decide
    · have htext : i.text = ['\x7d'] := hspelled
      rw [htext, List.getLast?_concat] at hc
      cases hc
      decide

/-- **An `include` between two statements** makes no difference. -/
theorem Circuit.ofSource_include {source : String} {rule : HeaderRule} {c : Circuit}
    (h : ofSource source rule = .ok c) {a z : List Char} (hsplit : BetweenStatements source a z)
    {name : String} (hname : name.toList ∈ Pattern.quotable) :
    ofSource (String.ofList (a ++ (includeText name).toList ++ z)) rule = .ok c := by
  obtain @⟨a, g, z, before, after, htext, hitems, hstop, hg, htop, hheader⟩ := hsplit
  rw [ofSource_eq_bind] at h ⊢
  obtain ⟨ts, hts, h⟩ := bind_eq_ok.1 h
  obtain ⟨⟨program, rest⟩, hprogram, hcircuit⟩ := bind_eq_ok.1 h
  obtain ⟨htokens, hall⟩ := Item.tokens_eq_map (tokens_eq_ok.1 hts)
  rw [hitems] at hall htokens
  rw [Item.tokens_append] at htokens
  obtain ⟨hbefore, hafter⟩ := List.forall_mem_append.1 hall
  rw [List.append_assoc] at htext
  -- The tokens of the new text.
  obtain ⟨a', z', htext', cut⟩ := (tiles_items source).exists_cut hitems hbefore
  obtain ⟨rfl, rfl⟩ := eq_of_utf8Len_eq (htext.symm.trans htext') (hstop.trans cut.stop.symm)
  have hbehind := (lexes_gap hg.gap).1 (cut.tiles.lexes hafter)
  have hparted := parted_of_topLevel htext hg hitems hbefore hstop htop
    ((includeText name).toList ++ z)
  have hlexes := cut.replace rfl hparted ((lexes_gap hg.gap).2 (lexes_includeText hname hbehind))
  rw [← List.append_assoc, ← String.toList_ofList (l := _ ++ z)] at hlexes
  obtain ⟨ts', hts', hmap⟩ := hlexes.exists_tokens
  -- They are read as the same statements.
  have hfirst :
      Item.tokens before = [] → (Item.tokens after).head? ≠ some (.keyword .openqasm) := by
    intro hnil
    obtain rfl := Item.eq_nil_of_tokens_eq_nil hbefore hnil
    rw [Item.head?_tokens hafter]
    intro hopenqasm
    obtain ⟨i, hi, hopenqasm⟩ := Option.bind_eq_some_iff.1 hopenqasm
    exact hheader rfl i hi hopenqasm
  obtain ⟨program', rest', hprogram', ⟨-, hkinds⟩, -⟩ :=
    Grammar.takes_program_include hprogram htokens.symm htop hfirst name ts' hmap
  obtain ⟨c', hcircuit', rfl⟩ := (agree_toCircuit (agrees_of_sameKinds hkinds)).exists_ok hcircuit
  exact bind_eq_ok.2 ⟨ts', hts', bind_eq_ok.2 ⟨_, hprogram', hcircuit'⟩⟩

/-- **Layout makes no difference.**  Blanks and comments may be put in at an end of a token, when a
blank comes first.  Texts with the same tokens stand for the same circuit, or they fail with the
same error at another place.  An `include` may be put in between two statements. -/
theorem layout_irrelevant :
    (∀ source ts front behind g, tokens source = .ok ts → TokenEnd source front behind →
      Filler g → (∃ c ∈ g.head?, isSpace c = true) →
      tokenSequence (String.ofList (front ++ g ++ behind)) = .ok (ts.map Located.token)) ∧
    (∀ source source' rule, tokenSequence source = tokenSequence source' →
      (Circuit.ofSource source rule).mapError ImportError.unplaced =
        (Circuit.ofSource source' rule).mapError ImportError.unplaced) ∧
    ∀ source rule c front behind name, Circuit.ofSource source rule = .ok c →
      BetweenStatements source front behind → '"' ∉ name.toList → '\n' ∉ name.toList →
      Circuit.ofSource (String.ofList (front ++ (includeText name).toList ++ behind)) rule =
        .ok c := by
  refine ⟨fun source ts front behind g hts hsplit hg hblank =>
      tokenSequence_insert hts hsplit hg hblank,
    fun source source' rule h => Circuit.ofSource_congr h rule,
    fun source rule c front behind name h hsplit hquote hline => ?_⟩
  refine Circuit.ofSource_include h hsplit fun d hd => ⟨?_, ?_⟩
  · exact ne_of_mem_of_not_mem hd hquote
  · exact ne_of_mem_of_not_mem hd hline

/-- A declaration and a statement on the register. -/
def closeText : String := "qreg q[1];h q;"

/-- A blank, a comment and another blank. -/
def remark : List Char := " // one qubit\n\t".toList

theorem filler_remark : Filler remark := by
  have htext : remark = ' ' :: '/' :: '/' :: (" one qubit".toList ++ '\n' :: ['\t']) := by decide
  rw [htext]
  exact .blank (by decide) (.comment (by decide) (.blank (by decide) .nil))

/-- The place behind the declaration is the end of a token. -/
theorem tokenEnd_closeText : TokenEnd closeText "qreg q[1];".toList "h q;".toList := by
  refine ⟨by decide, ⟨9, ⟨1, 10⟩, some (.punct .semicolon), [';']⟩, ?_, .inr (by decide)⟩
  have hitem : (items closeText)[5]? = some ⟨9, ⟨1, 10⟩, some (.punct .semicolon), [';']⟩ := by
    cbv
  exact List.mem_of_getElem? hitem

/-- A statement may start there. -/
theorem betweenStatements_closeText :
    BetweenStatements closeText "qreg q[1];".toList "h q;".toList := by
  have hclosed : String.utf8Len "qreg q[1];".toList =
      Item.lastStop 0 ((items closeText).take 6) := by
    cbv
  have htokens : Item.tokens ((items closeText).take 6) =
      [.keyword .qreg, .ident "q", .punct .leftBracket, .int (.word 1), .punct .rightBracket,
        .punct .semicolon] := by
    cbv
  have htop : TopLevel (Item.tokens ((items closeText).take 6)) := by
    rw [htokens]
    exact ⟨by decide, fun t ht => .inl (Option.some.inj ht).symm⟩
  have hbehind : (items closeText).take 6 ≠ [] := by
    intro hnil
    rw [hnil] at htokens
    cases htokens
  have htext : closeText.toList = "qreg q[1];".toList ++ [] ++ "h q;".toList := by decide
  have hsplit := BetweenStatements.intro htext (List.take_append_drop 6 (items closeText)).symm
    hclosed .nil htop fun hnil => absurd hnil hbehind
  rwa [List.append_nil] at hsplit

/-- A remark and an `include` behind a declaration. -/
theorem layout_irrelevant_closeText :
    (∃ ts, tokens closeText = .ok ts ∧
      TokenEnd closeText "qreg q[1];".toList "h q;".toList ∧ Filler remark ∧
      (∃ c ∈ remark.head?, isSpace c = true) ∧
      tokenSequence "qreg q[1]; // one qubit\n\th q;" = .ok (ts.map Located.token)) ∧
    (tokenSequence closeText = tokenSequence "qreg q[1]; // one qubit\n\th q;" ∧
      (Circuit.ofSource closeText .optional).mapError ImportError.unplaced =
        (Circuit.ofSource "qreg q[1]; // one qubit\n\th q;" .optional).mapError
          ImportError.unplaced) ∧
    ∃ c, Circuit.ofSource closeText .optional = .ok c ∧
      BetweenStatements closeText "qreg q[1];".toList "h q;".toList ∧
      Circuit.ofSource "qreg q[1];include \"gates.inc\";h q;" .optional = .ok c := by
  obtain ⟨insertion, congruence, inclusion⟩ := layout_irrelevant
  obtain ⟨ts, hts⟩ : ∃ ts, tokens closeText = .ok ts := ⟨_, by cbv⟩
  have hblank : ∃ c ∈ remark.head?, isSpace c = true := ⟨' ', rfl, rfl⟩
  have hinserted := insertion _ _ _ _ _ hts tokenEnd_closeText filler_remark hblank
  have htext : String.ofList ("qreg q[1];".toList ++ remark ++ "h q;".toList) =
      "qreg q[1]; // one qubit\n\th q;" := by
    decide
  rw [htext] at hinserted
  have hsame : tokenSequence closeText = tokenSequence "qreg q[1]; // one qubit\n\th q;" := by
    rw [hinserted, tokenSequence, hts]
    rfl
  obtain ⟨c, hc⟩ : ∃ c, Circuit.ofSource closeText .optional = .ok c := ⟨_, by cbv⟩
  have hincluded := inclusion _ _ _ _ _ "gates.inc" hc betweenStatements_closeText (by decide)
    (by decide)
  have htext' : String.ofList
      ("qreg q[1];".toList ++ (includeText "gates.inc").toList ++ "h q;".toList) =
      "qreg q[1];include \"gates.inc\";h q;" := by
    decide
  rw [htext'] at hincluded
  exact ⟨⟨ts, hts, tokenEnd_closeText, filler_remark, hblank, hinserted⟩,
    ⟨hsame, congruence _ _ .optional hsame⟩, c, hc, betweenStatements_closeText, hincluded⟩

end FlatQasm
