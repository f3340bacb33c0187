import FlatQasm.Proofs.Json.Library
import FlatQasm.Proofs.Json.Text
import FlatQasm.Proofs.Program.Imported
import FlatQasm.Proofs.Storage.Folder

/-!
# A conversion is all or nothing

A conversion goes through stages: the input is read and imported, the bindings are collected, the
circuit is exported, and the text is written.  Each stage but the last one leaves the files as they
are, and the last one changes nothing when it fails.  Nothing is printed before all of them are
done.  So either a conversion gives the text that it should, in one place, or it leaves no trace
but a failure.

This holds for any lawful access to files, and for any library that reads objects of numbers.

## Main definitions

* `ConvertCommand.Binds` — the bindings that a conversion is asked for.
* `ConvertCommand.Converts` — what has to be there for a conversion to succeed.
* `Settles` — a stage that leaves the files alone.

## Main statements

* `settles_loadCircuit`, `settles_loadBindings` — the stages before the export.
* `ConvertCommand.run_of_converts`, `ConvertCommand.run_of_not_converts` — the two outcomes.
* `ConvertCommand.run_allOrNothing` — which of them it is, and what is left behind.
-/

namespace FlatQasm

variable {σ : Type} {st : Storage (StateM σ)} {fs : FileSystem σ} {json : JsonLibrary}
  {HasNumbers : (text : String) → (members : List (String × Float)) → Prop}

/-! ## What a conversion is asked for -/

namespace ConvertCommand

/-- The bindings give each name the last value that it has on the command line, or else the last
one that it has in the file. -/
def Binds (o : ConvertCommand) (fs : FileSystem σ)
    (HasNumbers : (text : String) → (members : List (String × Float)) → Prop) (s : σ)
    (b : Bindings) : Prop :=
  ∃ members, (match o.bindingsFile with
    | none => members = []
    | some path => ∃ text, fs.ReadsText s path text ∧ HasNumbers text members) ∧
    ∀ name, b.get? name = (lastValue? name o.pairs).or (lastValue? name members)

/-- All that a conversion needs: a text that is imported as a circuit, bindings under which the
circuit has a text, and a place for it. -/
structure Converts (o : ConvertCommand) (fs : FileSystem σ)
    (HasNumbers : (text : String) → (members : List (String × Float)) → Prop) (s : σ)
    (source : String) (c : Circuit) (b : Bindings) (text : String) : Prop where
  readable : fs.ReadsText s o.input source
  imported : Circuit.ofSource source (if o.relaxed then .optional else .required) = .ok c
  bound : o.Binds fs HasNumbers s b
  exported : c.exportText b o.dropY = .ok text
  writable : ∀ path, o.output = some path → ∃ node, fs.Leads s path node

end ConvertCommand

/-! ## Stages -/

/-- A stage leaves the files alone.  It gives the one value with a property, or there is none and
it fails. -/
inductive Settles {α : Type} (stage : StateM σ (Except Failure α)) (s : σ) (P : α → Prop) : Prop
  | done {a : α} : stage s = (.ok a, s) → P a → (∀ a', P a' → a' = a) → Settles stage s P
  | failed {failure : Failure} : stage s = (.error failure, s) →
      failure.exitCode = 1 → (∀ a, ¬ P a) → Settles stage s P

section Stages

variable {s : σ}

/-- A step behind another one. -/
theorem bind_apply {α β : Type} {x : StateM σ α} {f : α → StateM σ β} {a : α} {after : σ}
    (h : x s = (a, after)) : (x >>= f) s = f a after := by
  simp only [bind, StateT.bind, h]

/-! ### The input -/

theorem importCircuit_apply {path : String} {result : Except FileError String}
    (h : st.read path s = (result, s)) (rule : HeaderRule) :
    st.importCircuit path rule s =
      (result.mapError (.unreadable path) >>= fun source =>
        (Circuit.ofSource source rule).mapError .invalid, s) := by
  rw [Storage.importCircuit, bind_apply h]
  cases result <;> rfl

theorem loadCircuit_apply {path : String} {found : Bool} {result : Except LoadError Circuit}
    (hfound : st.present path s = (found, s)) (relaxed : Bool)
    (h : st.importCircuit path (if relaxed then .optional else .required) s = (result, s)) :
    loadCircuit st path relaxed s =
      (if found then result.mapError (.importFailed path) else .error (.inputNotFound path),
        s) := by
  rw [loadCircuit, bind_apply hfound]
  cases found with
  | false => rfl
  | true =>
    simp only [if_true]
    rw [bind_apply h]
    rfl

/-- The input gives a circuit, or there is none. -/
theorem settles_loadCircuit (lawful : st.Lawful fs) (s : σ) (path : String) (relaxed : Bool) :
    Settles (loadCircuit st path relaxed) s fun c =>
      ∃ source, fs.ReadsText s path source ∧
        Circuit.ofSource source (if relaxed then .optional else .required) = .ok c := by
  cases lawful.read_cases s path with
  | inl h =>
    obtain ⟨source, hsource, hread⟩ := h
    have hload := loadCircuit_apply (lawful.present_eq_true hsource) relaxed
      (importCircuit_apply hread _)
    cases hc : Circuit.ofSource source (if relaxed then .optional else .required) with
    | ok c =>
      simp only [ok_mapError, ok_bind, hc] at hload
      refine .done hload ⟨source, hsource, hc⟩ ?_
      intro c' hc'
      obtain ⟨source', hsource', hc'⟩ := hc'
      rw [← lawful.readsText_unique hsource hsource', hc] at hc'
      exact (Except.ok.inj hc').symm
    | error e =>
      simp only [ok_mapError, ok_bind, hc, error_mapError] at hload
      refine .failed hload rfl ?_
      intro c' hc'
      obtain ⟨source', hsource', hc'⟩ := hc'
      rw [← lawful.readsText_unique hsource hsource', hc] at hc'
      cases hc'
  | inr h =>
    obtain ⟨hnone, cause, hread⟩ := h
    obtain ⟨found, hfound⟩ := lawful.present_keeps path s
    have hload := loadCircuit_apply hfound relaxed (importCircuit_apply hread _)
    have noCircuit : ∀ c : Circuit, ¬ ∃ source, fs.ReadsText s path source ∧
        Circuit.ofSource source (if relaxed then .optional else .required) = .ok c := by
      intro c hc
      obtain ⟨source, hsource, -⟩ := hc
      exact hnone source hsource
    cases found with
    | true => exact .failed hload rfl noCircuit
    | false => exact .failed hload rfl noCircuit

/-! ### The bindings -/

theorem ConvertCommand.Binds.unique (lawful : st.Lawful fs) (reads : json.Reads HasNumbers)
    {o : ConvertCommand} {b b' : Bindings} (h : o.Binds fs HasNumbers s b)
    (h' : o.Binds fs HasNumbers s b') : b = b' := by
  obtain ⟨members, hfile, hb⟩ := h
  obtain ⟨members', hfile', hb'⟩ := h'
  have hlast : ∀ name, lastValue? name members = lastValue? name members' := by
    cases hpath : o.bindingsFile with
    | none =>
      rw [hpath] at hfile hfile'
      intro name
      rw [hfile, hfile']
    | some path =>
      rw [hpath] at hfile hfile'
      obtain ⟨text, htext, hmembers⟩ := hfile
      obtain ⟨text', htext', hmembers'⟩ := hfile'
      rw [← lawful.readsText_unique htext htext'] at hmembers'
      exact reads.lastValue?_unique hmembers hmembers'
  refine Bindings.ext_get? ?_
  intro name
  rw [hb, hb', hlast]

section File

variable {path : String}

theorem loadBindings_of_error {cause : FileError} (hread : st.read path s = (.error cause, s))
    (pairs : List (String × Float)) : loadBindings st json (some path) pairs s =
      (.error (.bindingsUnreadable path cause), s) := by
  simp only [loadBindings]
  rw [bind_apply hread]
  rfl

variable {text : String} (hread : st.read path s = (.ok text, s))
include hread

theorem loadBindings_of_none (h : json.numbers? text = none) (pairs : List (String × Float)) :
    loadBindings st json (some path) pairs s = (.error (.bindingsInvalid path), s) := by
  simp only [loadBindings]
  rw [bind_apply hread]
  simp only [h]
  rfl

theorem loadBindings_of_some {entries : List (String × Float)}
    (h : json.numbers? text = some entries) (pairs : List (String × Float)) :
    loadBindings st json (some path) pairs s =
      (.ok ((Bindings.ofList entries).insertMany pairs), s) := by
  simp only [loadBindings]
  rw [bind_apply hread]
  simp only [h]
  rfl

end File

/-- The bindings can be collected, or the file has no object of numbers. -/
theorem settles_loadBindings (lawful : st.Lawful fs) (reads : json.Reads HasNumbers)
    (o : ConvertCommand) (s : σ) :
    Settles (loadBindings st json o.bindingsFile o.pairs) s (o.Binds fs HasNumbers s) := by
  cases hpath : o.bindingsFile with
  | none =>
    have hbinds : o.Binds fs HasNumbers s (.ofList o.pairs) := by
      refine ⟨[], by rw [hpath], ?_⟩
      intro name
      rw [Bindings.get?_ofList]
      exact Option.or_none.symm
    exact .done rfl hbinds fun b h => h.unique lawful reads hbinds
  | some path =>
    cases lawful.read_cases s path with
    | inl h =>
      obtain ⟨text, htext, hread⟩ := h
      cases hnumbers : json.numbers? text with
      | none =>
        refine .failed (loadBindings_of_none hread hnumbers o.pairs) rfl ?_
        intro b hb
        obtain ⟨members, hfile, -⟩ := hb
        rw [hpath] at hfile
        obtain ⟨text', htext', hmembers⟩ := hfile
        rw [← lawful.readsText_unique htext htext'] at hmembers
        obtain ⟨entries, hentries, -⟩ := reads.read hmembers
        rw [hnumbers] at hentries
        cases hentries
      | some entries =>
        obtain ⟨members, hmembers⟩ := reads.exists_members hnumbers
        have hbinds :
            o.Binds fs HasNumbers s ((Bindings.ofList entries).insertMany o.pairs) := by
          refine ⟨members, ?_, ?_⟩
          · rw [hpath]
            exact ⟨text, htext, hmembers⟩
          · intro name
            rw [Bindings.get?_insertMany, Bindings.get?_ofList,
              reads.lastValue?_eq hmembers hnumbers]
        exact .done (loadBindings_of_some hread hnumbers o.pairs) hbinds
          fun b h => h.unique lawful reads hbinds
    | inr h =>
      obtain ⟨hnone, cause, hread⟩ := h
      refine .failed (loadBindings_of_error hread o.pairs) rfl ?_
      intro b hb
      obtain ⟨members, hfile, -⟩ := hb
      rw [hpath] at hfile
      obtain ⟨text, htext, -⟩ := hfile
      exact hnone text htext

/-! ### The export -/

theorem exportCircuit_of_error {c : Circuit} {options : ExportOptions} {cause : ExportError}
    (h : c.exportText options.bindings options.dropY = .error cause) :
    st.exportCircuit c options s = (.error (.noText cause), s) := by
  rw [Storage.exportCircuit, h]
  rfl

theorem exportCircuit_of_noOutput {c : Circuit} {b : Bindings} {dropY : Bool} {text : String}
    (h : c.exportText b dropY = .ok text) :
    st.exportCircuit c ⟨b, dropY, none⟩ s = (.ok text, s) := by
  rw [Storage.exportCircuit, h]
  rfl

theorem exportCircuit_of_output {c : Circuit} {b : Bindings} {dropY : Bool} {text path : String}
    (h : c.exportText b dropY = .ok text) {result : Except FileError Unit} {after : σ}
    (hwrite : st.write path text s = (result, after)) :
    st.exportCircuit c ⟨b, dropY, some path⟩ s =
      ((result.mapError (.unwritable path)).map fun _ => text, after) := by
  rw [Storage.exportCircuit, h]
  dsimp only
  rw [bind_apply hwrite]
  cases result <;> rfl

end Stages

/-! ## The whole conversion -/

namespace ConvertCommand

variable {o : ConvertCommand} {s : σ}

/-- What is left when a conversion succeeds: the text is printed and the files are as they were, or
nothing is printed and the text is in the file at the output path, the only one that changes. -/
structure Leaves (o : ConvertCommand) (fs : FileSystem σ) (s : σ) (text : String)
    (outcome : Outcome) (after : σ) : Prop where
  printed : o.output = none → outcome.output = text ∧ after = s
  written : ∀ path, o.output = some path → outcome.output = "" ∧
    ∃ node, fs.Leads s path node ∧ fs.Written s after node text

theorem run_of_noCircuit {failure : Failure}
    (h : loadCircuit st o.input o.relaxed s = (.error failure, s)) :
    o.run st json s = (.ofFailure [o.startNote] failure, s) := by
  rw [run, bind_apply h]
  rfl

section Loaded

variable {c : Circuit} (hload : loadCircuit st o.input o.relaxed s = (.ok c, s))
include hload

theorem run_of_noBindings {failure : Failure}
    (h : loadBindings st json o.bindingsFile o.pairs s = (.error failure, s)) :
    o.run st json s = (.ofFailure (o.startNote :: loadNotes c) failure, s) := by
  rw [run, bind_apply hload]
  dsimp only
  rw [bind_apply h]
  rfl

variable {b : Bindings} (hbindings : loadBindings st json o.bindingsFile o.pairs s = (.ok b, s))
include hbindings

theorem run_of_noExport {cause : SaveError} {after : σ}
    (h : st.exportCircuit c ⟨b, o.dropY, o.output⟩ s = (.error cause, after)) :
    o.run st json s =
      (.ofFailure (o.startNote :: loadNotes c) (.exportFailed cause), after) := by
  rw [run, bind_apply hload]
  dsimp only
  rw [bind_apply hbindings]
  dsimp only
  rw [bind_apply h]
  rfl

theorem exists_run_of_export {text : String} {after : σ}
    (h : st.exportCircuit c ⟨b, o.dropY, o.output⟩ s = (.ok text, after)) :
    ∃ notes, o.run st json s = (⟨if o.output = none then text else "", notes, none⟩, after) := by
  rw [run, bind_apply hload]
  dsimp only
  rw [bind_apply hbindings]
  dsimp only
  rw [bind_apply h]
  dsimp only
  cases o.output <;> exact ⟨_, rfl⟩

end Loaded

section Outcomes

variable (lawful : st.Lawful fs) (reads : json.Reads HasNumbers)
include lawful reads

/-- **A conversion that has all that it needs gives its text.** -/
theorem run_of_converts {source : String} {c : Circuit} {b : Bindings} {text : String}
    (h : o.Converts fs HasNumbers s source c b text) :
    ∃ outcome after, o.run st json s = (outcome, after) ∧
      outcome.exitCode = 0 ∧ o.Leaves fs s text outcome after := by
  have hload : loadCircuit st o.input o.relaxed s = (.ok c, s) := by
    cases settles_loadCircuit lawful s o.input o.relaxed with
    | done hload _ unique => rwa [unique c ⟨source, h.readable, h.imported⟩]
    | failed _ _ hnone => exact absurd ⟨source, h.readable, h.imported⟩ (hnone c)
  have hbindings : loadBindings st json o.bindingsFile o.pairs s = (.ok b, s) := by
    cases settles_loadBindings lawful reads o s with
    | done hbindings _ unique => rwa [unique b h.bound]
    | failed _ _ hnone => exact absurd h.bound (hnone b)
  cases houtput : o.output with
  | none =>
    have hexport : st.exportCircuit c ⟨b, o.dropY, o.output⟩ s = (.ok text, s) := by
      rw [houtput]
      exact exportCircuit_of_noOutput h.exported
    obtain ⟨notes, hrun⟩ := exists_run_of_export hload hbindings hexport
    refine ⟨_, _, hrun, rfl, ?_, ?_⟩
    · intro _
      exact ⟨if_pos houtput, rfl⟩
    · intro path hpath
      simp [houtput] at hpath
  | some path =>
    cases lawful.write_cases s path text with
    | inl hwrite =>
      obtain ⟨node, after, hleads, hwrite, hwritten⟩ := hwrite
      have hexport : st.exportCircuit c ⟨b, o.dropY, o.output⟩ s = (.ok text, after) := by
        rw [houtput]
        exact exportCircuit_of_output h.exported hwrite
      obtain ⟨notes, hrun⟩ := exists_run_of_export hload hbindings hexport
      refine ⟨_, _, hrun, rfl, ?_, ?_⟩
      · intro hnone
        simp [houtput] at hnone
      · intro path' hpath'
        obtain rfl : path = path' := by simpa [houtput] using hpath'
        exact ⟨if_neg (by simp [houtput]), node, hleads, hwritten⟩
    | inr hwrite =>
      obtain ⟨node, hleads⟩ := h.writable path houtput
      exact absurd hleads (hwrite.1 node)

/-- **A conversion that lacks something leaves no trace but a failure.** -/
theorem run_of_not_converts
    (h : ∀ source c b text, ¬ o.Converts fs HasNumbers s source c b text) :
    ∃ outcome, o.run st json s = (outcome, s) ∧
      outcome.exitCode = 1 ∧ outcome.output = "" := by
  cases settles_loadCircuit lawful s o.input o.relaxed with
  | failed hload hcode _ => exact ⟨_, run_of_noCircuit hload, hcode, rfl⟩
  | @done c hload himport _ =>
    obtain ⟨source, hsource, hc⟩ := himport
    cases settles_loadBindings lawful reads o s with
    | failed hbindings hcode _ => exact ⟨_, run_of_noBindings hload hbindings, hcode, rfl⟩
    | @done b hbindings hb _ =>
      have noPlace : ∀ text, c.exportText b o.dropY = .ok text →
          ∃ path, o.output = some path ∧ ∀ node, ¬ fs.Leads s path node := by
        intro text htext
        by_contra hplace
        push Not at hplace
        exact h source c b text ⟨hsource, hc, hb, htext, hplace⟩
      have hexport : ∃ cause,
          st.exportCircuit c ⟨b, o.dropY, o.output⟩ s = (.error cause, s) := by
        cases htext : c.exportText b o.dropY with
        | error cause => exact ⟨_, exportCircuit_of_error htext⟩
        | ok text =>
          obtain ⟨path, houtput, hplace⟩ := noPlace text htext
          rw [houtput]
          obtain ⟨cause, hwrite⟩ := lawful.write_of_not_leads text hplace
          exact ⟨_, exportCircuit_of_output htext hwrite⟩
      obtain ⟨cause, hexport⟩ := hexport
      exact ⟨_, run_of_noExport hload hbindings hexport, rfl, rfl⟩

/-- **A conversion is all or nothing.**  It succeeds exactly when the input is a text that is
imported, the bindings can be collected, the circuit has a text under them, and there is a place
for it.  Then the text is printed or is in the output file, and nothing else is.  Otherwise the exit
code is one, nothing is printed, and the files are as they were. -/
theorem run_allOrNothing (o : ConvertCommand) (s : σ) :
    ∃ outcome after, (Command.convert o).run st json s = (outcome, after) ∧
      (outcome.exitCode = 0 ↔ ∃ source c b text, o.Converts fs HasNumbers s source c b text) ∧
      (∀ source c b text, o.Converts fs HasNumbers s source c b text →
        o.Leaves fs s text outcome after) ∧
      (outcome.exitCode ≠ 0 →
        outcome.exitCode = 1 ∧ outcome.output = "" ∧ after = s) := by
  by_cases h : ∃ source c b text, o.Converts fs HasNumbers s source c b text
  · obtain ⟨source, c, b, text, hconverts⟩ := id h
    obtain ⟨outcome, after, hrun, hcode, -⟩ := run_of_converts lawful reads hconverts
    refine ⟨outcome, after, hrun, ?_, ?_, ?_⟩
    · simp [hcode, h]
    · intro source' c' b' text' hconverts'
      obtain ⟨outcome', after', hrun', -, hleaves⟩ := run_of_converts lawful reads hconverts'
      rw [hrun] at hrun'
      cases hrun'
      exact hleaves
    · intro hne
      exact absurd hcode hne
  · push Not at h
    obtain ⟨outcome, hrun, hcode, houtput⟩ := run_of_not_converts lawful reads h
    refine ⟨outcome, s, hrun, ?_, ?_, ?_⟩
    · simp [hcode, h]
    · intro source c b text hconverts
      exact absurd hconverts (h source c b text)
    · intro _
      exact ⟨hcode, houtput, rfl⟩

end Outcomes

/-! ### A conversion in place -/

/-- A circuit with two free variables. -/
def turnsText : String := "OPENQASM 2.0;\nqreg q[1];\nry(a) q[0];\nrx(b) q[0];\n"

/-- The circuit of that text. -/
def turns : Circuit where
  qubitCount := 1
  clbitCount := 0
  instructions := [.gate ⟨.rotation .y (.var "a"), .zero⟩ [⟨0⟩],
    .gate ⟨.rotation .x (.var "b"), .zero⟩ [⟨0⟩]]

/-- Numbers for its variables, one of them given twice. -/
def turnsNumbers : Json :=
  .record [("a", .ofFloat 1.5), ("b", .ofFloat 3), ("a", .ofFloat 0.5)]

/-- A folder with the text and the numbers. -/
def turnsFolder : Folder :=
  ⟨[(["in"], turnsText.toUTF8), (["vars"], turnsNumbers.compact.toUTF8)]⟩

/-- A conversion that takes one number from the file and one from the command line, and puts its
text in the place of its input. -/
def inPlace : ConvertCommand where
  input := "in"
  output := some "./in"
  relaxed := false
  dropY := true
  pairs := [("b", 1), ("b", 2)]
  bindingsFile := some "vars"

/-- The text that it gives. -/
def turnedText : String :=
  "OPENQASM 2.0;\ninclude \"qelib1.inc\";\nqreg q[1];\nrz(-1.5707963267948966) q[0];\n" ++
  "rx(0.5) q[0];\nrz(1.5707963267948966) q[0];\nrx(2.0) q[0];\n"

section TurnsFolder

variable (a b : ByteArray)

theorem find_in : (Folder.mk [(["in"], a), (["vars"], b)]).find "in" false =
    .ok (.file ["in"] a) := by
  have hparts : "in".splitOn "/" = ["in"] := by cbv
  simp only [Folder.find, hparts]
  rfl

theorem find_vars : (Folder.mk [(["in"], a), (["vars"], b)]).find "vars" false =
    .ok (.file ["vars"] b) := by
  have hparts : "vars".splitOn "/" = ["vars"] := by cbv
  simp only [Folder.find, hparts]
  rfl

theorem find_inHere : (Folder.mk [(["in"], a), (["vars"], b)]).find "./in" true =
    .ok (.file ["in"] a) := by
  have hparts : "./in".splitOn "/" = [".", "in"] := by cbv
  simp only [Folder.find, hparts]
  rfl

end TurnsFolder

theorem fromUTF8?_toUTF8 (text : String) : String.fromUTF8? text.toUTF8 = some text := by
  simp only [String.fromUTF8?, String.toUTF8_eq_toByteArray, dif_pos text.isValidUTF8]
  rfl

theorem namesNumber_ofFloat (name : String) {x : Float} (h : (Json.ofFloat x).float? = some x) :
    NamesNumber (Json.escape name.toList, .ofFloat x) (name, x) :=
  ⟨Json.unescape?_escape _, h⟩

theorem hasNumbers_turnsNumbers :
    Json.HasNumbers turnsNumbers.compact [("a", 1.5), ("b", 3), ("a", 0.5)] := by
  have hlexical : turnsNumbers.Lexical :=
    Json.lexical_record (by simp [Json.lexical_ofFloat])
  refine ⟨_, hlexical.parse?_compact, ?_⟩
  exact .cons (namesNumber_ofFloat "a" (by decide +kernel))
    (.cons (namesNumber_ofFloat "b" (by decide +kernel))
      (.cons (namesNumber_ofFloat "a" (by decide +kernel)) .nil))

theorem converts_inPlace : inPlace.Converts Folder.fileSystem Json.HasNumbers turnsFolder turnsText
    turns (.ofList [("a", 0.5), ("b", 2)]) turnedText where
  readable := Folder.readsText_iff.2 ⟨_, _, find_in _ _, fromUTF8?_toUTF8 _⟩
  imported := toOption_eq_some.1 (by decide +kernel)
  bound := by
    have hvars : Folder.fileSystem.ReadsText turnsFolder "vars" turnsNumbers.compact :=
      Folder.readsText_iff.2 ⟨_, _, find_vars _ _, fromUTF8?_toUTF8 _⟩
    refine ⟨_, ⟨_, hvars, hasNumbers_turnsNumbers⟩, fun name => ?_⟩
    rw [Bindings.get?_ofList]
    simp only [lastValue?, inPlace, List.reverse_cons, List.reverse_nil, List.nil_append,
      List.cons_append, lookup_cons_eq_ite, List.lookup_nil]
    by_cases hb : name = "b"
    · simp [hb]
    · by_cases ha : name = "a" <;> simp [hb, ha]
  exported := toOption_eq_some.1 (by decide +kernel)
  writable := by
    rintro path ⟨⟩
    exact ⟨["in"], .inl ⟨_, find_inHere _ _⟩⟩

/-- It succeeds, prints nothing, and its text is in the file that was read. -/
theorem run_allOrNothing_inPlace :
    Folder.storage.Lawful Folder.fileSystem ∧ Json.library.Reads Json.HasNumbers ∧
    ∃ outcome after, (Command.convert inPlace).run Folder.storage Json.library turnsFolder =
        (outcome, after) ∧ outcome.exitCode = 0 ∧ outcome.output = "" ∧
      after.get? ["in"] = some turnedText.toUTF8 ∧
      after.get? ["vars"] = some turnsNumbers.compact.toUTF8 := by
  obtain ⟨outcome, after, hrun, hcode, hleaves, -⟩ :=
    run_allOrNothing Folder.lawful_storage Json.reads_library inPlace turnsFolder
  obtain ⟨houtput, node, hleads, hcontent, hothers⟩ :=
    (hleaves _ _ _ _ converts_inPlace).written "./in" rfl
  obtain rfl : node = ["in"] := by
    rcases hleads with ⟨content, hfind⟩ | hfind
    · cases (find_inHere _ _).symm.trans hfind
      rfl
    · cases (find_inHere _ _).symm.trans hfind
  refine ⟨Folder.lawful_storage, Json.reads_library, outcome, after, hrun,
    hcode.2 ⟨_, _, _, _, converts_inPlace⟩, houtput, hcontent, ?_⟩
  have hne : ["vars"] ≠ ["in"] := by decide
  exact (hothers ["vars"] hne).trans rfl

end ConvertCommand

end FlatQasm
