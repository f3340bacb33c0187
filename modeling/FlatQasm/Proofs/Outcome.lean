import Mathlib

/-!
# Computations that may fail

What it means for a computation in `Except` to give a value or an error, read off its last step.
Every function of the importer is a chain of such steps, and the proofs about it take the chain
apart with these statements.

## Main statements

* `ok_bind`, `error_bind` — a step behind one whose outcome is known.
* `bind_eq_ok`, `bind_eq_error` — two steps in a row.
* `mapM_eq_ok`, `mapM_eq_some`, `mapM_eq_map`, `mapM_eq_mapError`, `exists_of_mapM_eq_error` — one
  step for each element of a list.
* `mapM_eq_error_of_first` — the first step that fails decides the error.
-/

namespace FlatQasm

variable {ε ε' α β : Type}

section

variable (a : α) (e : ε) (next : α → Except ε β) (f : α → β) (g : ε → ε')

@[simp] theorem ok_bind : (Except.ok a >>= next) = next a := rfl

@[simp] theorem error_bind : (Except.error e >>= next) = .error e := rfl

@[simp] theorem ok_map : (Except.ok a : Except ε α).map f = .ok (f a) := rfl

@[simp] theorem error_map : (Except.error e : Except ε α).map f = .error e := rfl

@[simp] theorem ok_mapError : (Except.ok a : Except ε α).mapError g = .ok a := rfl

@[simp] theorem error_mapError : (Except.error e : Except ε α).mapError g = .error (g e) := rfl

end

@[simp] theorem bind_eq_ok {x : Except ε α} {f : α → Except ε β} {b : β} :
    x >>= f = .ok b ↔ ∃ a, x = .ok a ∧ f a = .ok b := by
  cases x <;> simp [bind, Except.bind]

theorem bind_eq_error {x : Except ε α} {f : α → Except ε β} {e : ε} :
    x >>= f = .error e ↔ x = .error e ∨ ∃ a, x = .ok a ∧ f a = .error e := by
  cases x <;> simp [bind, Except.bind]

@[simp] theorem map_eq_ok {x : Except ε α} {f : α → β} {b : β} :
    x.map f = .ok b ↔ ∃ a, x = .ok a ∧ f a = b := by
  cases x <;> simp [Except.map]

@[simp] theorem map_eq_error {x : Except ε α} {f : α → β} {e : ε} :
    x.map f = .error e ↔ x = .error e := by
  cases x <;> simp [Except.map]

@[simp] theorem mapError_eq_ok {x : Except ε α} {f : ε → ε'} {a : α} :
    x.mapError f = .ok a ↔ x = .ok a := by
  cases x <;> simp [Except.mapError]

theorem mapError_eq_error {x : Except ε α} {f : ε → ε'} {e : ε'} :
    x.mapError f = .error e ↔ ∃ cause, x = .error cause ∧ f cause = e := by
  cases x <;> simp [Except.mapError]

theorem mapError_bind {x : Except ε α} {f : α → Except ε β} {g : ε → ε'} :
    (x >>= f).mapError g = x.mapError g >>= fun a => (f a).mapError g := by
  cases x <;> rfl

theorem mapError_map {x : Except ε α} {f : α → β} {g : ε → ε'} :
    (x.map f).mapError g = (x.mapError g).map f := by
  cases x <;> rfl

@[simp] theorem toOption_eq_some {x : Except ε α} {a : α} : x.toOption = some a ↔ x = .ok a := by
  cases x <;> simp [Except.toOption]

/-- A step for each element succeeds exactly when each of the steps does. -/
theorem mapM_eq_ok {f : α → Except ε β} {list : List α} {results : List β} :
    list.mapM f = .ok results ↔ List.Forall₂ (fun a b => f a = .ok b) list results := by
  induction list generalizing results with
  | nil => simp [pure, Except.pure, eq_comm]
  | cons a rest ih =>
    rw [List.mapM_cons, List.forall₂_cons_left_iff]
    simp only [bind_eq_ok, ih, pure, Except.pure, Except.ok.injEq]
    constructor
    · rintro ⟨b, ha, bs, hrest, rfl⟩
      exact ⟨b, bs, ha, hrest, rfl⟩
    · rintro ⟨b, bs, ha, hrest, rfl⟩
      exact ⟨b, ha, bs, hrest, rfl⟩

/-- The same for steps that say nothing of why they fail. -/
theorem mapM_eq_some {f : α → Option β} {list : List α} {results : List β} :
    list.mapM f = some results ↔ List.Forall₂ (fun a b => f a = some b) list results := by
  induction list generalizing results with
  | nil => simp [eq_comm]
  | cons a rest ih =>
    rw [List.mapM_cons, List.forall₂_cons_left_iff]
    simp only [bind, Option.bind_eq_some_iff, ih, pure, Option.some.injEq]
    constructor
    · intro h
      obtain ⟨b, ha, bs, hrest, heq⟩ := h
      exact ⟨b, bs, ha, hrest, heq.symm⟩
    · intro h
      obtain ⟨b, bs, ha, hrest, heq⟩ := h
      exact ⟨b, ha, bs, hrest, heq.symm⟩

/-- Where each step gives a changed value, all steps give the changed values. -/
theorem mapM_eq_map {γ : Type} {f : α → Except ε β} {g : α → Except ε γ} {change : β → γ}
    {list : List α} (h : ∀ a ∈ list, g a = (f a).map change) :
    list.mapM g = (list.mapM f).map (List.map change) := by
  induction list with
  | nil => rfl
  | cons a rest ih =>
    rw [List.forall_mem_cons] at h
    rw [List.mapM_cons, List.mapM_cons, h.1, ih h.2]
    cases f a with
    | error e => rfl
    | ok b => cases rest.mapM f <;> rfl

/-- Where each step gives a changed error, all steps give the changed error. -/
theorem mapM_eq_mapError {f : α → Except ε β} {g : α → Except ε' β} {change : ε → ε'}
    {list : List α} (h : ∀ a ∈ list, g a = (f a).mapError change) :
    list.mapM g = (list.mapM f).mapError change := by
  induction list with
  | nil => rfl
  | cons a rest ih =>
    rw [List.forall_mem_cons] at h
    rw [List.mapM_cons, List.mapM_cons, h.1, ih h.2]
    cases f a with
    | error e => rfl
    | ok b => cases rest.mapM f <;> rfl

/-- When a step for each element fails, one of the steps does, with the same error. -/
theorem exists_of_mapM_eq_error {f : α → Except ε β} {list : List α} {e : ε}
    (h : list.mapM f = .error e) : ∃ a ∈ list, f a = .error e := by
  induction list with
  | nil => cases h
  | cons a rest ih =>
    rw [List.mapM_cons, bind_eq_error] at h
    rcases h with h | ⟨b, -, h⟩
    · exact ⟨a, List.mem_cons_self, h⟩
    · rw [bind_eq_error] at h
      rcases h with h | ⟨bs, -, h⟩
      · obtain ⟨x, hx, hf⟩ := ih h
        exact ⟨x, List.mem_cons_of_mem a hx, hf⟩
      · cases h

/-- Of the elements with a property there is a first one. -/
theorem exists_first {p : α → Prop} {list : List α} (h : ∃ a ∈ list, p a) :
    ∃ before a after, list = before ++ a :: after ∧ (∀ x ∈ before, ¬ p x) ∧ p a := by
  induction list with
  | nil => simp at h
  | cons a rest ih =>
    by_cases ha : p a
    · exact ⟨[], a, rest, rfl, List.forall_mem_nil _, ha⟩
    · have hrest : ∃ x ∈ rest, p x := by simpa [ha] using h
      obtain ⟨before, x, after, rfl, hbefore, hx⟩ := ih hrest
      exact ⟨a :: before, x, after, rfl, List.forall_mem_cons.2 ⟨ha, hbefore⟩, hx⟩

/-- The first step that fails decides the error. -/
theorem mapM_eq_error_of_first {f : α → Except ε β} {before after : List α} {a : α}
    (hbefore : ∀ x ∈ before, ∃ y, f x = .ok y) {e : ε} (h : f a = .error e) :
    (before ++ a :: after).mapM f = .error e := by
  induction before with
  | nil => rw [List.nil_append, List.mapM_cons, h]; rfl
  | cons x before ih =>
    rw [List.forall_mem_cons] at hbefore
    obtain ⟨⟨y, hy⟩, hbefore⟩ := hbefore
    rw [List.cons_append, List.mapM_cons, hy, ih hbefore]
    rfl

/-- Steps for lists of elements are steps for all elements. -/
theorem mapM_flatMap {γ : Type} {f : β → Except ε γ} (g : α → List β) (list : List α) :
    (list.flatMap g).mapM f = (list.mapM fun a => (g a).mapM f).map List.flatten := by
  induction list with
  | nil => rfl
  | cons a rest ih =>
    rw [List.flatMap_cons, List.mapM_append, List.mapM_cons, ih]
    cases (g a).mapM f with
    | error e => rfl
    | ok bs => cases rest.mapM fun a => (g a).mapM f <;> rfl

/-- A relation that every element of a list stands in, element by element. -/
theorem exists_forall₂ {r : α → β → Prop} {list : List α} (h : ∀ a ∈ list, ∃ b, r a b) :
    ∃ results, List.Forall₂ r list results := by
  induction list with
  | nil => exact ⟨[], .nil⟩
  | cons a list ih =>
    rw [List.forall_mem_cons] at h
    obtain ⟨b, hb⟩ := h.1
    obtain ⟨results, hresults⟩ := ih h.2
    exact ⟨b :: results, .cons hb hresults⟩

/-- Where each step succeeds, all of them do. -/
theorem exists_mapM_eq_ok {f : α → Except ε β} {list : List α}
    (h : ∀ a ∈ list, ∃ b, f a = .ok b) : ∃ bs, list.mapM f = .ok bs := by
  obtain ⟨bs, hbs⟩ := exists_forall₂ h
  exact ⟨bs, mapM_eq_ok.2 hbs⟩

/-- Two relations in a row, element by element. -/
theorem exists_forall₂_of_comp {γ : Type} {r : α → β → Prop} {s : β → γ → Prop} {list : List α}
    {results : List γ} (h : List.Forall₂ (fun a c => ∃ b, r a b ∧ s b c) list results) :
    ∃ between, List.Forall₂ r list between ∧ List.Forall₂ s between results := by
  induction h with
  | nil => exact ⟨[], .nil, .nil⟩
  | cons hac _ ih =>
    obtain ⟨b, hr, hs⟩ := hac
    obtain ⟨between, hrs, hss⟩ := ih
    exact ⟨b :: between, .cons hr hrs, .cons hs hss⟩

/-- A relation on the elements of two lists, with what is known of the elements of the second. -/
theorem forall₂_imp_of_mem {r s : α → β → Prop} {list : List α} {results : List β}
    (h : List.Forall₂ r list results) (imp : ∀ a b, b ∈ results → r a b → s a b) :
    List.Forall₂ s list results := by
  induction h with
  | nil => exact .nil
  | cons hr _ ih =>
    exact .cons (imp _ _ List.mem_cons_self hr)
      (ih fun a b hb => imp a b (List.mem_cons_of_mem _ hb))

theorem exists_mem_of_forall₂ {α β : Type*} {r : α → β → Prop} {list : List α}
    {results : List β} (h : List.Forall₂ r list results) {b : β} (hb : b ∈ results) :
    ∃ a ∈ list, r a b := by
  induction h with
  | nil => cases hb
  | cons hr _ ih =>
    rcases List.mem_cons.1 hb with rfl | hb
    · exact ⟨_, List.mem_cons_self, hr⟩
    · obtain ⟨a, ha, hab⟩ := ih hb
      exact ⟨a, List.mem_cons_of_mem _ ha, hab⟩

/-- Lists related element by element, the second of which is in two parts. -/
theorem exists_append_of_forall₂ {r : α → β → Prop} {list : List α} {before after : List β}
    (h : List.Forall₂ r list (before ++ after)) :
    ∃ u v, list = u ++ v ∧ List.Forall₂ r u before ∧ List.Forall₂ r v after :=
  ⟨_, _, (List.take_append_drop before.length list).symm,
    List.forall₂_take_append list before after h, List.forall₂_drop_append list before after h⟩

/-- Lists with the same values are related element by element. -/
theorem forall₂_of_map_eq {γ : Type} {f : α → γ} {g : β → γ} {list : List α} {results : List β}
    (h : list.map f = results.map g) : List.Forall₂ (fun a b => f a = g b) list results := by
  have hmap : List.Forall₂ Eq (list.map f) (results.map g) := h ▸ List.forall₂_refl _
  rwa [List.forall₂_map_left_iff, List.forall₂_map_right_iff] at hmap

/-- A function, element by element. -/
theorem eq_map_of_forall₂ {f : α → β} {list : List α} {results : List β}
    (h : List.Forall₂ (fun a b => b = f a) list results) : results = list.map f := by
  induction h with
  | nil => rfl
  | cons hb _ ih => rw [List.map_cons, hb, ih]

/-- A function that undoes a relation, element by element. -/
theorem map_eq_of_forall₂ {f : β → α} {list : List α} {results : List β}
    (h : List.Forall₂ (fun a b => f b = a) list results) : results.map f = list := by
  induction h with
  | nil => rfl
  | cons hb _ ih => rw [List.map_cons, hb, ih]

end FlatQasm
