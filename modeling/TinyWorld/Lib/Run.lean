import Mathlib.Data.List.Basic

/-! # Runs of a step function that may fail

`run` feeds a list of events to a step function. `Guarded ok` says that every
event of a list meets a state in which it is `ok`. -/
namespace TinyWorld.Lib.Run

variable {S E : Type*} (step : S → E → Option S) (ok : S → E → Prop)

def run (s : S) (es : List E) : Option S := es.foldlM step s

def Guarded : S → List E → Prop
  | _, [] => True
  | s, e :: es => ok s e ∧ ∀ s', step s e = some s' → Guarded s' es

variable {step ok}

instance decidableGuarded [∀ s e, Decidable (ok s e)] :
    ∀ s es, Decidable (Guarded step ok s es)
  | _, [] => .isTrue trivial
  | s, e :: es =>
    have := fun s' => decidableGuarded s' es
    inferInstanceAs (Decidable (ok s e ∧ ∀ s' ∈ step s e, Guarded step ok s' es))

@[simp] theorem run_nil (s : S) : run step s [] = some s := rfl

theorem run_cons (s : S) (e : E) (es : List E) :
    run step s (e :: es) = (step s e).bind fun s' => run step s' es := rfl

theorem run_append (s : S) (es es' : List E) :
    run step s (es ++ es') = (run step s es).bind fun s' => run step s' es' := by
  induction es generalizing s with
  | nil => rfl
  | cons e es ih =>
    rw [List.cons_append, run_cons, run_cons, Option.bind_assoc]
    exact congrArg _ (funext fun s' => ih s')

/-! ## Two runs in lockstep -/

section
variable {α β : Type*} {R : α → β → Prop}

theorem rel_bind {α' β' : Type*} {R' : α' → β' → Prop} {x : Option α} {y : Option β}
    {f : α → Option α'} {g : β → Option β'} (h : Option.Rel R x y)
    (hfg : ∀ a b, R a b → Option.Rel R' (f a) (g b)) : Option.Rel R' (x.bind f) (y.bind g) := by
  cases h with
  | some h => exact hfg _ _ h
  | none => exact .none

theorem rel_imp {R' : α → β → Prop} {x : Option α} {y : Option β} (h : Option.Rel R x y)
    (hRR' : ∀ a b, R a b → R' a b) : Option.Rel R' x y := by
  cases h with
  | some h => exact .some (hRR' _ _ h)
  | none => exact .none

theorem rel_foldlM {f : α → E → Option α} {g : β → E → Option β}
    (h : ∀ a b e, R a b → Option.Rel R (f a e) (g b e)) (es : List E) {a : α} {b : β}
    (hab : R a b) : Option.Rel R (es.foldlM f a) (es.foldlM g b) := by
  induction es generalizing a b with
  | nil => exact .some hab
  | cons e es ih => exact rel_bind (h a b e hab) fun _ _ => ih

end

theorem Guarded.cons {s t : S} {e : E} {es : List E} (he : ok s e) (hs : step s e = some t)
    (hg : Guarded step ok t es) : Guarded step ok s (e :: es) :=
  ⟨he, fun s' hs' => by
    rw [hs, Option.some.injEq] at hs'
    exact hs' ▸ hg⟩

/-- Every event of a run that does not fail is possible. -/
theorem Guarded.of_run {s t : S} {es : List E} (hr : run step s es = some t) :
    Guarded step (fun s e => (step s e).isSome = true) s es := by
  induction es generalizing s with
  | nil => trivial
  | cons e es ih =>
    rw [run_cons, Option.bind_eq_some_iff] at hr
    obtain ⟨u, hu, hr⟩ := hr
    exact .cons (by rw [hu]; rfl) hu (ih hr)

theorem Guarded.of_forall {s : S} {es : List E} (h : ∀ e ∈ es, ∀ s, ok s e) :
    Guarded step ok s es := by
  induction es generalizing s with
  | nil => trivial
  | cons e es ih =>
    exact ⟨h e (by simp) s, fun s' _ => ih fun d hd => h d (List.mem_cons_of_mem _ hd)⟩

/-- **Invariants of runs.** If every guarded step from a state satisfying `I`
succeeds and leads to such a state, every guarded run does. -/
theorem run_invariant {I : S → Prop}
    (hstep : ∀ s e, I s → ok s e → ∃ s', step s e = some s' ∧ I s') {s : S} {es : List E}
    (hs : I s) (hg : Guarded step ok s es) : ∃ s', run step s es = some s' ∧ I s' := by
  induction es generalizing s with
  | nil => exact ⟨s, rfl, hs⟩
  | cons e es ih =>
    obtain ⟨s', he, hs'⟩ := hstep s e hs hg.1
    obtain ⟨s'', hr, hs''⟩ := ih hs' (hg.2 s' he)
    exact ⟨s'', by rw [run_cons, he]; exact hr, hs''⟩

/-- An invariant of the guarded steps, in the guarded runs that do not fail. -/
theorem Guarded.run_preserves {I : S → Prop}
    (hstep : ∀ s e s', I s → ok s e → step s e = some s' → I s') {s s' : S} {es : List E}
    (hg : Guarded step ok s es) (hs : I s) (hr : run step s es = some s') : I s' := by
  induction es generalizing s with
  | nil => exact Option.some.inj hr ▸ hs
  | cons e es ih =>
    rw [run_cons, Option.bind_eq_some_iff] at hr
    obtain ⟨t, ht, hr⟩ := hr
    exact ih (hg.2 t ht) (hstep s e t hs hg.1 ht) hr

/-- **Counting down.** What an event of a kind brings nearer by one, and no event puts off. -/
theorem Guarded.run_countdown {I : S → Prop} (tick : E → Bool) (Q : Nat → S → Prop)
    (hstep : ∀ s e s', I s → ok s e → step s e = some s' →
      I s' ∧ ∀ k, Q k s → Q (if tick e then k - 1 else k) s') {s s' : S} {es : List E}
    (hg : Guarded step ok s es) (hs : I s) (hr : run step s es = some s') {k : Nat} (hq : Q k s) :
    Q (k - es.countP tick) s' := by
  induction es generalizing s k with
  | nil => exact Option.some.inj hr ▸ hq
  | cons e es ih =>
    rw [run_cons, Option.bind_eq_some_iff] at hr
    obtain ⟨t, ht, hr⟩ := hr
    obtain ⟨hi, hnext⟩ := hstep s e t hs hg.1 ht
    have h := ih (hg.2 t ht) hi hr (hnext k hq)
    rw [List.countP_cons]
    split at h
    · rename_i he
      rwa [if_pos he, Nat.add_comm, ← Nat.sub_sub]
    · rename_i he
      rwa [if_neg he]

/-- An invariant of the step function, in the runs that do not fail. -/
theorem run_preserves {I : S → Prop} (hstep : ∀ s e s', I s → step s e = some s' → I s') {s s' : S}
    {es : List E} (hs : I s) (hr : run step s es = some s') : I s' := by
  have hg : Guarded step (fun _ _ => True) s es := .of_forall fun _ _ _ => trivial
  exact hg.run_preserves (fun s e s' h _ => hstep s e s' h) hs hr

/-- **What a run loses stays lost.** A property that a step keeps if the step is `ok`, and that no
step restores, holds at the end of the guarded runs only. -/
theorem run_iff_guarded {I P : S → Prop}
    (hstep : ∀ s e s', I s → step s e = some s' → I s' ∧ (P s' ↔ P s ∧ ok s e)) {s s' : S}
    {es : List E} (hi : I s) (hp : P s) (hr : run step s es = some s') :
    P s' ↔ Guarded step ok s es := by
  suffices h : ∀ (es : List E) (t : S), I t → run step t es = some s' →
      (P s' ↔ P t ∧ Guarded step ok t es) from (h es s hi hr).trans (and_iff_right hp)
  intro es
  induction es with
  | nil =>
    intro t _ hrun
    cases hrun
    exact (and_iff_left trivial).symm
  | cons e es ih =>
    intro t ht hrun
    rw [run_cons, Option.bind_eq_some_iff] at hrun
    obtain ⟨u, hu, hrun⟩ := hrun
    obtain ⟨hiu, hpu⟩ := hstep t e u ht hu
    rw [ih u hiu hrun, hpu, and_assoc]
    refine and_congr_right fun _ => and_congr_right fun _ =>
      ⟨fun hg u' hu' => ?_, fun hg => hg u hu⟩
    rw [hu] at hu'
    cases hu'
    exact hg

theorem Guarded.prefix {s : S} {es es' : List E} (h : Guarded step ok s (es ++ es')) :
    Guarded step ok s es := by
  induction es generalizing s with
  | nil => trivial
  | cons e es ih => exact ⟨h.1, fun s' hs => ih (h.2 s' hs)⟩

theorem Guarded.drop {s s' : S} {es es' : List E} (h : Guarded step ok s (es ++ es'))
    (hr : run step s es = some s') : Guarded step ok s' es' := by
  induction es generalizing s with
  | nil =>
    cases hr
    exact h
  | cons d es ih =>
    rw [run_cons, Option.bind_eq_some_iff] at hr
    obtain ⟨t, ht, hr⟩ := hr
    exact ih (h.2 t ht) hr

theorem Guarded.and_iff {ok' : S → E → Prop} {s : S} {es : List E} :
    Guarded step (fun s e => ok s e ∧ ok' s e) s es ↔
    Guarded step ok s es ∧ Guarded step ok' s es := by
  induction es generalizing s with
  | nil => exact ⟨fun _ => ⟨trivial, trivial⟩, fun _ => trivial⟩
  | cons e es ih =>
    constructor
    · intro h
      obtain ⟨⟨he, he'⟩, hs⟩ := h
      exact ⟨⟨he, fun t ht => (ih.mp (hs t ht)).1⟩, he', fun t ht => (ih.mp (hs t ht)).2⟩
    · intro h
      obtain ⟨⟨he, hs⟩, he', hs'⟩ := h
      exact ⟨⟨he, he'⟩, fun t ht => ih.mpr ⟨hs t ht, hs' t ht⟩⟩

/-- Two guards that agree wherever an invariant of the guarded steps holds. -/
theorem Guarded.congr {ok' : S → E → Prop} {I : S → Prop} {s : S} {es : List E}
    (hok : ∀ s, ∀ e ∈ es, I s → (ok s e ↔ ok' s e))
    (hstep : ∀ s, ∀ e ∈ es, ∀ s', I s → ok s e → step s e = some s' → I s') (hs : I s) :
    Guarded step ok s es ↔ Guarded step ok' s es := by
  induction es generalizing s with
  | nil => exact Iff.rfl
  | cons e es ih =>
    have hok' : ∀ s, ∀ d ∈ es, I s → (ok s d ↔ ok' s d) :=
      fun s d hd => hok s d (List.mem_cons_of_mem _ hd)
    have hstep' : ∀ s, ∀ d ∈ es, ∀ s', I s → ok s d → step s d = some s' → I s' :=
      fun s d hd => hstep s d (List.mem_cons_of_mem _ hd)
    have he := hok s e (by simp) hs
    constructor
    · intro h
      exact ⟨he.mp h.1, fun s' hs' =>
        (ih hok' hstep' (hstep s e (by simp) s' hs h.1 hs')).mp (h.2 s' hs')⟩
    · intro h
      exact ⟨he.mpr h.1, fun s' hs' =>
        (ih hok' hstep' (hstep s e (by simp) s' hs (he.mpr h.1) hs')).mpr (h.2 s' hs')⟩

end TinyWorld.Lib.Run
