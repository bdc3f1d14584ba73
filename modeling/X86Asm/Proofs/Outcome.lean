/-!
# Computations that may fail

Sequenced steps of type `Except` succeed exactly if every step does, and they fail exactly as the
first step does that fails. These are the laws by which the checks, the passes and the assembly are
taken apart.
-/

namespace X86Asm

variable {α β σ ε : Type}

/-- A sequence succeeds exactly if both of its steps do. -/
@[simp] theorem bind_eq_ok_iff {x : Except ε α} {f : α → Except ε β} {b : β} :
    x >>= f = .ok b ↔ ∃ a, x = .ok a ∧ f a = .ok b := by
  cases x with
  | error e => simp [bind, Except.bind]
  | ok a => simp [bind, Except.bind]

/-- A sequence fails exactly if its first step does, or its second after the first. -/
theorem bind_eq_error_iff {x : Except ε α} {f : α → Except ε β} {e : ε} :
    x >>= f = .error e ↔ x = .error e ∨ ∃ a, x = .ok a ∧ f a = .error e := by
  cases x with
  | error e' => simp [bind, Except.bind]
  | ok a => simp [bind, Except.bind]

/-- A check in front of a computation has to pass. -/
theorem check_bind_eq_ok_iff {x : Except ε Unit} {f : Unit → Except ε β} {b : β} :
    x >>= f = .ok b ↔ x = .ok () ∧ f () = .ok b := by
  rw [bind_eq_ok_iff]
  exact ⟨fun ⟨_, hx, hf⟩ => ⟨hx, hf⟩, fun ⟨hx, hf⟩ => ⟨(), hx, hf⟩⟩

/-- A changed result is the change of a result. -/
@[simp] theorem map_eq_ok_iff {x : Except ε α} {f : α → β} {b : β} :
    f <$> x = .ok b ↔ ∃ a, x = .ok a ∧ f a = b := by
  cases x with
  | error e => simp [Functor.map, Except.map]
  | ok a => simp [Functor.map, Except.map]

/-- Changing the result changes no error. -/
@[simp] theorem map_eq_error_iff {x : Except ε α} {f : α → β} {e : ε} :
    f <$> x = .error e ↔ x = .error e := by
  cases x with
  | error e' => simp [Functor.map, Except.map]
  | ok a => simp [Functor.map, Except.map]

/-- Forgetting the error keeps the result. -/
theorem toOption_eq_some_iff {x : Except ε α} {a : α} : x.toOption = some a ↔ x = .ok a := by
  cases x with
  | error e => simp [Except.toOption]
  | ok b => simp [Except.toOption]

/-- A list passes a check exactly if all its members do. -/
theorem forM_eq_ok_iff {xs : List α} {f : α → Except ε Unit} :
    xs.forM f = .ok () ↔ ∀ x ∈ xs, f x = .ok () := by
  rw [List.forM_eq_forM]
  induction xs with
  | nil => simp [pure, Except.pure]
  | cons x xs ih =>
    rw [List.forM_cons, bind_eq_ok_iff, List.forall_mem_cons, ← ih]
    exact ⟨fun ⟨_, hx, hxs⟩ => ⟨hx, hxs⟩, fun ⟨hx, hxs⟩ => ⟨(), hx, hxs⟩⟩

/-- A list that fails a check has a member that does. -/
theorem exists_of_forM_eq_error {xs : List α} {f : α → Except ε Unit} {e : ε}
    (h : xs.forM f = .error e) : ∃ x ∈ xs, f x = .error e := by
  rw [List.forM_eq_forM] at h
  induction xs with
  | nil => cases h
  | cons x xs ih =>
    rw [List.forM_cons] at h
    rcases bind_eq_error_iff.mp h with h | ⟨_, -, h⟩
    · exact ⟨x, List.mem_cons_self, h⟩
    · obtain ⟨y, hy, hf⟩ := ih h
      exact ⟨y, List.mem_cons_of_mem _ hy, hf⟩

/-- A list fails a check as the first of its members does that fails it. -/
theorem forM_eq_error_iff {xs : List α} {f : α → Except ε Unit} {e : ε} :
    xs.forM f = .error e ↔
      ∃ before x after, xs = before ++ x :: after ∧ (∀ y ∈ before, f y = .ok ()) ∧
        f x = .error e := by
  rw [List.forM_eq_forM]
  induction xs with
  | nil => simp [pure, Except.pure]
  | cons x xs ih =>
    rw [List.forM_cons, bind_eq_error_iff]
    constructor
    · rintro (h | ⟨_, hx, h⟩)
      · exact ⟨[], x, xs, rfl, nofun, h⟩
      · obtain ⟨before, y, after, rfl, hbefore, hy⟩ := ih.mp h
        exact ⟨x :: before, y, after, rfl, List.forall_mem_cons.mpr ⟨hx, hbefore⟩, hy⟩
    · rintro ⟨before, y, after, heq, hbefore, hy⟩
      cases before with
      | nil =>
        obtain ⟨rfl, rfl⟩ := List.cons.inj heq
        exact .inl hy
      | cons z before =>
        obtain ⟨rfl, rfl⟩ := List.cons.inj heq
        obtain ⟨hx, hbefore⟩ := List.forall_mem_cons.mp hbefore
        exact .inr ⟨(), hx, ih.mpr ⟨before, y, after, rfl, hbefore, hy⟩⟩

/-- The members of several lists are checked one list after the other. -/
theorem forM_flatMap {xs : List α} {g : α → List β} {f : β → Except ε Unit} :
    (xs.flatMap g).forM f = xs.forM fun x => (g x).forM f := by
  simp only [List.forM_eq_forM]
  induction xs with
  | nil => rfl
  | cons x xs ih => rw [List.flatMap_cons, List.forM_append, List.forM_cons, ih]

/-- A fold that succeeds goes through a sequence of states, one in front of each member and one at
the end. -/
theorem exists_states_of_foldlM {f : σ → α → Except ε σ} {xs : List α} {s t : σ}
    (h : xs.foldlM f s = .ok t) :
    ∃ states : Nat → σ, states 0 = s ∧ states xs.length = t ∧
      ∀ i x, xs[i]? = some x → f (states i) x = .ok (states (i + 1)) := by
  induction xs generalizing s with
  | nil =>
    obtain rfl := Except.ok.inj h
    exact ⟨fun _ => s, rfl, rfl, by simp⟩
  | cons x xs ih =>
    rw [List.foldlM_cons, bind_eq_ok_iff] at h
    obtain ⟨u, hu, h⟩ := h
    obtain ⟨states, hstart, hend, hstep⟩ := ih h
    -- the states of the rest come one later
    let withFirst (i : Nat) : σ := i.casesOn s states
    refine ⟨withFirst, rfl, hend, ?_⟩
    intro i y hy
    cases i with
    | zero =>
      cases hy
      rw [show withFirst (0 + 1) = u from hstart]
      exact hu
    | succ i => exact hstep i y hy

/-- A fold fails at the first member whose step fails. -/
theorem foldlM_eq_error_iff {f : σ → α → Except ε σ} {xs : List α} {s : σ} {e : ε} :
    xs.foldlM f s = .error e ↔
      ∃ before x after u, xs = before ++ x :: after ∧ before.foldlM f s = .ok u ∧
        f u x = .error e := by
  induction xs generalizing s with
  | nil => simp [pure, Except.pure]
  | cons x xs ih =>
    rw [List.foldlM_cons, bind_eq_error_iff]
    constructor
    · rintro (h | ⟨t, ht, h⟩)
      · exact ⟨[], x, xs, s, rfl, rfl, h⟩
      · obtain ⟨before, y, after, u, rfl, hu, hy⟩ := ih.mp h
        refine ⟨x :: before, y, after, u, rfl, ?_, hy⟩
        rw [List.foldlM_cons, bind_eq_ok_iff]
        exact ⟨t, ht, hu⟩
    · rintro ⟨before, y, after, u, heq, hu, hy⟩
      cases before with
      | nil =>
        obtain ⟨rfl, rfl⟩ := List.cons.inj heq
        cases hu
        exact .inl hy
      | cons z before =>
        obtain ⟨rfl, rfl⟩ := List.cons.inj heq
        rw [List.foldlM_cons, bind_eq_ok_iff] at hu
        obtain ⟨t, ht, hu⟩ := hu
        exact .inr ⟨t, ht, ih.mpr ⟨before, y, after, u, rfl, hu, hy⟩⟩

/-! ## Computations that go alike -/

variable {α' β' γ ε' : Type}

/-- Two computations succeed with results that are related, or fail with errors that are. -/
inductive Alike (E : ε → ε' → Prop) (R : α → α' → Prop) : Except ε α → Except ε' α' → Prop
  | ok {a : α} {a' : α'} : R a a' → Alike E R (.ok a) (.ok a')
  | error {e : ε} {e' : ε'} : E e e' → Alike E R (.error e) (.error e')

namespace Alike

variable {E : ε → ε' → Prop} {R : α → α' → Prop} {S : β → β' → Prop} {x : Except ε α}
  {x' : Except ε' α'}

/-- Sequences go alike if their first steps do, and their second ones after these. -/
theorem bind {f : α → Except ε β} {f' : α' → Except ε' β'} (h : Alike E R x x')
    (hf : ∀ a a', x = .ok a → x' = .ok a' → R a a' → Alike E S (f a) (f' a')) :
    Alike E S (x >>= f) (x' >>= f') := by
  cases h with
  | ok hR => exact hf _ _ rfl rfl hR
  | error he => exact .error he

/-- Computations go alike also after their results are changed to related ones. -/
theorem map {f : α → β} {f' : α' → β'} (h : Alike E R x x')
    (hf : ∀ a a', R a a' → S (f a) (f' a')) : Alike E S (f <$> x) (f' <$> x') := by
  cases h with
  | ok hR => exact .ok (hf _ _ hR)
  | error he => exact .error he

/-- Changing the result on one side only is enough if that relates the results. -/
theorem map_left {f : α → β} {S : β → α' → Prop} (h : Alike E R x x')
    (hf : ∀ a a', R a a' → S (f a) a') : Alike E S (f <$> x) x' := by
  cases h with
  | ok hR => exact .ok (hf _ _ hR)
  | error he => exact .error he

/-- Computations go alike also after their errors are changed to related ones. -/
theorem mapError {F : ε → ε' → Prop} {g : ε → ε} {g' : ε' → ε'} (h : Alike E R x x')
    (hg : ∀ e e', E e e' → F (g e) (g' e')) : Alike F R (x.mapError g) (x'.mapError g') := by
  cases h with
  | ok hR => exact .ok hR
  | error he => exact .error (hg _ _ he)

/-- A condition that both computations ask for is decided once. -/
theorem ite {c : Prop} [Decidable c] {y : Except ε α} {y' : Except ε' α'}
    (h : c → Alike E R x x') (h' : ¬ c → Alike E R y y') :
    Alike E R (if c then x else y) (if c then x' else y') := by
  split
  · exact h ‹_›
  · exact h' ‹_›

/-- Two computations that go like a third one go alike. -/
theorem join {F : ε → ε' → Prop} {x'' : Except ε γ} {T : γ → α' → Prop}
    {E' : ε → ε → Prop} {S : α → γ → Prop} (h : Alike E R x x') (h' : Alike F T x'' x')
    (hresult : ∀ a c a', R a a' → T c a' → S a c)
    (herror : ∀ e e' e'', E e e'' → F e' e'' → E' e e') : Alike E' S x x'' := by
  cases h with
  | ok hR =>
    cases h' with
    | ok hT => exact .ok (hresult _ _ _ hR hT)
  | error he =>
    cases h' with
    | error he' => exact .error (herror _ _ _ he he')

end Alike

end X86Asm
