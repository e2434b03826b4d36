import Mathlib.Tactic.Common

/-!
# Runs of a partial step function

A component is a function `step : σ → α → Except ε (σ × β)`: from a state and an
input it reaches a state and delivers an output, or it stops with an error.
`run` is the run over a list of inputs, `Along guard` says that every input of
the run is given in a state in which it meets `guard`.

* `run_invariant`, `run_ne_error`: what one guarded step keeps (an invariant)
  or never does (stop with the error `bad`), a guarded run keeps or never does.
* `run_completes`: when every step goes through with the right output, every run does.
* `run_through`: a guarded run goes through when the guarded steps do.
* `Along.of_invariant`: a guard is strengthened by an invariant.
* `run_iff_along`: when an unguarded step leaves the good states for good, the
  runs ending in a good state are exactly the guarded ones.
* `Always good` says that every state the run reaches is `good`; by
  `always_iff_along` the guard decides it when it decides every single step.
  `Until release good` asks for it only up to the first input that releases.
* `TwoRuns` are two runs of which the second is given extra inputs; `related` is
  the simulation rule for them.
-/

namespace StepRun

variable {σ α β ε : Type}

/-- Feed a list of inputs, collecting the outputs. -/
def run (step : σ → α → Except ε (σ × β)) : σ → List α → Except ε (σ × List β)
  | s, [] => .ok (s, [])
  | s, a :: as =>
    match step s a with
    | .error e => .error e
    | .ok (s₁, b) =>
      match run step s₁ as with
      | .error e => .error e
      | .ok (s₂, bs) => .ok (s₂, b :: bs)

/-- Every input of the run meets `guard` in the state it is given in. -/
def Along (step : σ → α → Except ε (σ × β)) (guard : σ → α → Prop) : σ → List α → Prop
  | _, [] => True
  | s, a :: as => guard s a ∧ ∀ s₁ b, step s a = .ok (s₁, b) → Along step guard s₁ as

/-- Every state of the run is `good`, the first and the last one included. -/
def Always (step : σ → α → Except ε (σ × β)) (good : σ → Prop) : σ → List α → Prop
  | s, [] => good s
  | s, a :: as => good s ∧ ∀ s₁ b, step s a = .ok (s₁, b) → Always step good s₁ as

/-- Every state of the run is `good` until an input releases it. -/
def Until (step : σ → α → Except ε (σ × β)) (release : α → Prop) (good : σ → Prop) :
    σ → List α → Prop
  | s, [] => good s
  | s, a :: as => good s ∧
      (¬ release a → ∀ s₁ b, step s a = .ok (s₁, b) → Until step release good s₁ as)

variable {step : σ → α → Except ε (σ × β)} {s t u : σ} {a : α} {b : β} {as as' : List α}
  {bs bs' : List β}

/-- An operation that delivers its result through `f`, read backwards. -/
theorem of_map_eq_ok {γ : Type} {f : α → γ} {x : Except ε α} {c : γ}
    (done : x.map f = .ok c) : ∃ a, x = .ok a ∧ f a = c := by
  cases x with
  | error e => cases done
  | ok a => exact ⟨a, rfl, Except.ok.inj done⟩

/-- An operation that goes on with the result of another one, read backwards. -/
theorem of_bind_eq_ok {γ : Type} {f : α → Except ε γ} {x : Except ε α} {c : γ}
    (done : x >>= f = .ok c) : ∃ a, x = .ok a ∧ f a = .ok c := by
  cases x with
  | error e => cases done
  | ok a => exact ⟨a, rfl, done⟩

theorem exists_ok_of_isOk {x : Except ε α} (ok : x.isOk = true) : ∃ a, x = .ok a := by
  cases x with
  | error e => cases ok
  | ok a => exact ⟨a, rfl⟩

theorem foldlM_cons_ok {f : σ → α → Except ε σ} (head : f s a = .ok t)
    (tail : as.foldlM f t = .ok u) : (a :: as).foldlM f s = .ok u := by
  rw [List.foldlM_cons, head]
  exact tail

/-- What one operation keeps, a list of operations keeps. -/
theorem foldlM_invariant {f : σ → α → Except ε σ} (inv : σ → Prop)
    (keep : ∀ {s s'}, ∀ a ∈ as, inv s → f s a = .ok s' → inv s') (start : inv s)
    (completed : as.foldlM f s = .ok t) : inv t := by
  induction as generalizing s with
  | nil =>
    cases completed
    exact start
  | cons a as ih =>
    rw [List.foldlM_cons] at completed
    obtain ⟨m, head, tail⟩ := of_bind_eq_ok completed
    exact ih (fun a' mem => keep a' (List.mem_cons_of_mem a mem))
      (keep a List.mem_cons_self start head) tail

@[simp] theorem run_nil : run step s [] = .ok (s, []) := rfl

theorem run_cons (head : step s a = .ok (t, b)) (tail : run step t as = .ok (u, bs)) :
    run step s (a :: as) = .ok (u, b :: bs) := by
  simp only [run, head, tail]

/-- The first step of a completed run, and the rest of it. -/
theorem of_run_cons {out : List β} (completed : run step s (a :: as) = .ok (u, out)) :
    ∃ t b bs, step s a = .ok (t, b) ∧ run step t as = .ok (u, bs) ∧ out = b :: bs := by
  simp only [run] at completed
  split at completed
  · cases completed
  · next t b head =>
    split at completed
    · cases completed
    · next v bs tail =>
      cases completed
      exact ⟨t, b, bs, head, tail, rfl⟩

theorem run_append (first : run step s as = .ok (t, bs)) (second : run step t as' = .ok (u, bs')) :
    run step s (as ++ as') = .ok (u, bs ++ bs') := by
  induction as generalizing s bs with
  | nil =>
    cases first
    exact second
  | cons a as ih =>
    obtain ⟨m, b, rest, head, tail, rfl⟩ := of_run_cons first
    exact run_cons head (ih tail)

theorem Always.first {good : σ → Prop} (always : Always step good s as) : good s := by
  cases as with
  | nil => exact always
  | cons a as => exact always.1

theorem Until.first {release : α → Prop} {good : σ → Prop}
    (held : Until step release good s as) : good s := by
  cases as with
  | nil => exact held
  | cons a as => exact held.1

/-- The end of a completed run is one of its states. -/
theorem Always.last {good : σ → Prop} (always : Always step good s as)
    (completed : run step s as = .ok (t, bs)) : good t := by
  induction as generalizing s bs with
  | nil =>
    cases completed
    exact always
  | cons a as ih =>
    obtain ⟨m, b, rest, head, tail, -⟩ := of_run_cons completed
    exact ih (always.2 m b head) tail

/-- A completed run splits where its inputs do. -/
theorem of_run_append {out : List β} (completed : run step s (as ++ as') = .ok (u, out)) :
    ∃ t bs bs', run step s as = .ok (t, bs) ∧ run step t as' = .ok (u, bs') ∧
      out = bs ++ bs' := by
  induction as generalizing s out with
  | nil => exact ⟨s, [], out, rfl, completed, rfl⟩
  | cons a as ih =>
    obtain ⟨m, b, rest, head, tail, rfl⟩ := of_run_cons completed
    obtain ⟨t, bs, bs', first, second, rfl⟩ := ih tail
    exact ⟨t, b :: bs, bs', run_cons head first, second, rfl⟩

/-! ## Guarded runs -/

section Rules

variable {guard : σ → α → Prop}

theorem Along.of_forall (always : ∀ s a, guard s a) : Along step guard s as := by
  induction as generalizing s with
  | nil => trivial
  | cons a as ih => exact ⟨always s a, fun _ _ _ => ih⟩

theorem Along.of_forall_mem (always : ∀ a ∈ as, ∀ s, guard s a) : Along step guard s as := by
  induction as generalizing s with
  | nil => trivial
  | cons a as ih =>
    exact ⟨always a List.mem_cons_self s,
      fun _ _ _ => ih fun a' mem => always a' (List.mem_cons_of_mem a mem)⟩

theorem Along.cons (now : guard s a) (head : step s a = .ok (t, b))
    (later : Along step guard t as) : Along step guard s (a :: as) := by
  refine ⟨now, fun m b' head' => ?_⟩
  cases head.symm.trans head'
  exact later

/-- A guarded run keeps what a guarded step keeps. -/
theorem run_invariant (inv : σ → Prop)
    (keep : ∀ {s a s' b}, inv s → guard s a → step s a = .ok (s', b) → inv s')
    (start : inv s) (guarded : Along step guard s as) (completed : run step s as = .ok (t, bs)) :
    inv t := by
  induction as generalizing s bs with
  | nil =>
    cases completed
    exact start
  | cons a as ih =>
    obtain ⟨m, b, rest, head, tail, -⟩ := of_run_cons completed
    exact ih (keep start guarded.1 head) (guarded.2 m b head) tail

theorem run_keeps (inv : σ → Prop)
    (keep : ∀ {s a s' b}, inv s → step s a = .ok (s', b) → inv s') (start : inv s)
    (completed : run step s as = .ok (t, bs)) : inv t :=
  run_invariant inv (fun held (_ : True) => keep held) start (.of_forall fun _ _ => trivial)
    completed

/-- When every step goes through with the right output from any state, so does every
run. -/
theorem run_completes {right : α → β → Prop}
    (total : ∀ s a, ∃ t b, step s a = .ok (t, b) ∧ right a b) (s : σ) (as : List α) :
    ∃ t bs, run step s as = .ok (t, bs) ∧ List.Forall₂ right as bs := by
  induction as generalizing s with
  | nil => exact ⟨s, [], rfl, .nil⟩
  | cons a as ih =>
    obtain ⟨m, b, head, first⟩ := total s a
    obtain ⟨t, bs, tail, rest⟩ := ih m
    exact ⟨t, b :: bs, run_cons head tail, .cons first rest⟩

/-- A guarded run goes through when every guarded step does and keeps the invariant. -/
theorem run_through (inv : σ → Prop)
    (through : ∀ {s a}, inv s → guard s a → ∃ t b, step s a = .ok (t, b) ∧ inv t)
    (start : inv s) (guarded : Along step guard s as) :
    ∃ t bs, run step s as = .ok (t, bs) ∧ inv t := by
  induction as generalizing s with
  | nil => exact ⟨s, [], rfl, start⟩
  | cons a as ih =>
    obtain ⟨m, b, head, mid⟩ := through start guarded.1
    obtain ⟨t, bs, tail, ends⟩ := ih mid (guarded.2 m b head)
    exact ⟨t, b :: bs, run_cons head tail, ends⟩

/-- What an invariant and the guard imply at each input holds along the run. -/
theorem Along.of_invariant {goal : σ → α → Prop} (inv : σ → Prop)
    (keep : ∀ {s a s' b}, inv s → guard s a → step s a = .ok (s', b) → inv s')
    (entails : ∀ {s a}, inv s → guard s a → goal s a)
    (start : inv s) (guarded : Along step guard s as) : Along step goal s as := by
  induction as generalizing s with
  | nil => trivial
  | cons a as ih =>
    refine ⟨entails start guarded.1, fun m b head => ?_⟩
    exact ih (keep start guarded.1 head) (guarded.2 m b head)

/-- What an invariant of the guarded steps implies holds in every state of a guarded run. -/
theorem always_of_along {good : σ → Prop} (inv : σ → Prop)
    (keep : ∀ {s a s' b}, inv s → guard s a → step s a = .ok (s', b) → inv s')
    (entails : ∀ {s}, inv s → good s) (start : inv s) (guarded : Along step guard s as) :
    Always step good s as := by
  induction as generalizing s with
  | nil => exact entails start
  | cons a as ih =>
    refine ⟨entails start, fun m b head => ?_⟩
    exact ih (keep start guarded.1 head) (guarded.2 m b head)

/-- A guarded run never stops with an error no guarded step stops with. -/
theorem run_ne_error {bad : ε} (safe : ∀ {s a}, guard s a → step s a ≠ .error bad)
    (guarded : Along step guard s as) : run step s as ≠ .error bad := by
  induction as generalizing s with
  | nil => simp only [run_nil, ne_eq, reduceCtorEq, not_false_eq_true]
  | cons a as ih =>
    intro stopped
    simp only [run] at stopped
    split at stopped
    · next e failed =>
      cases stopped
      exact safe guarded.1 failed
    · next m b head =>
      split at stopped
      · next e failed =>
        cases stopped
        exact ih (guarded.2 m b head) failed
      · cases stopped

/-- When the guard decides whether a single step stops with an error, it decides
whether a run does. -/
theorem run_ne_error_iff {bad : ε} (inv : σ → Prop)
    (keep : ∀ {s a s' b}, inv s → step s a = .ok (s', b) → inv s')
    (decides : ∀ {s a}, inv s → (step s a ≠ .error bad ↔ guard s a)) (start : inv s) :
    run step s as ≠ .error bad ↔ Along step guard s as := by
  induction as generalizing s with
  | nil => exact iff_of_true nofun trivial
  | cons a as ih =>
    simp only [run, Along, ← decides start]
    cases head : step s a with
    | error e =>
      constructor
      · intro fine
        refine ⟨fun same => fine ?_, nofun⟩
        cases same
        rfl
      · intro along same
        cases same
        exact along.1 rfl
    | ok next =>
      obtain ⟨t, b⟩ := next
      have tail := ih (keep start head)
      constructor
      · intro fine
        refine ⟨nofun, fun t' b' same => ?_⟩
        cases same
        exact tail.mp fun stopped => fine (by simp only [stopped])
      · intro along stopped
        refine tail.mpr (along.2 t b rfl) ?_
        cases rest : run step t as with
        | error e =>
          simp only [rest] at stopped
          exact stopped
        | ok ends =>
          simp only [rest] at stopped
          cases stopped

/-- When guarded steps keep `good`, unguarded steps break it, and nothing
repairs it, a completed run ends in a good state exactly when it is guarded. -/
theorem run_iff_along (good bad : σ → Prop)
    (keep : ∀ {s a s' b}, good s → guard s a → step s a = .ok (s', b) → good s')
    (leave : ∀ {s a s' b}, good s → ¬ guard s a → step s a = .ok (s', b) → bad s')
    (stay : ∀ {s a s' b}, bad s → step s a = .ok (s', b) → bad s')
    (apart : ∀ {s}, good s → ¬ bad s)
    (start : good s) (completed : run step s as = .ok (t, bs)) :
    good t ↔ Along step guard s as := by
  have spoilt : ∀ {s : σ} {as bs}, bad s → run step s as = .ok (t, bs) → bad t := by
    intro s as
    induction as generalizing s with
    | nil =>
      intro bs broken completed
      cases completed
      exact broken
    | cons a as ih =>
      intro bs broken completed
      obtain ⟨m, b, rest, head, tail, -⟩ := of_run_cons completed
      exact ih (stay broken head) tail
  induction as generalizing s bs with
  | nil =>
    cases completed
    exact ⟨fun _ => trivial, fun _ => start⟩
  | cons a as ih =>
    obtain ⟨m, b, rest, head, tail, -⟩ := of_run_cons completed
    by_cases guarded : guard s a
    · exact (ih (keep start guarded head) tail).trans
        ⟨fun later => Along.cons guarded head later, fun all => all.2 m b head⟩
    · constructor
      · intro fine
        exact (apart fine (spoilt (leave start guarded head) tail)).elim
      · intro all
        exact (guarded all.1).elim

/-- A run from a good state over allowed inputs stays good exactly when it is guarded,
when the guard decides whether a single step does. -/
theorem always_iff_along_of_mem (good : σ → Prop) (allowed : α → Prop)
    (keep : ∀ {s a s' b}, good s → allowed a → guard s a → step s a = .ok (s', b) → good s')
    (leave : ∀ {s a}, good s → ¬ guard s a → ∃ s' b, step s a = .ok (s', b) ∧ ¬ good s')
    (start : good s) (all : ∀ a ∈ as, allowed a) :
    Always step good s as ↔ Along step guard s as := by
  induction as generalizing s with
  | nil => exact ⟨fun _ => trivial, fun _ => start⟩
  | cons a as ih =>
    obtain ⟨now, later⟩ := List.forall_mem_cons.mp all
    constructor
    · intro always
      by_cases guarded : guard s a
      · exact ⟨guarded, fun t b head =>
          (ih (keep start now guarded head) later).mp (always.2 t b head)⟩
      · obtain ⟨t, b, head, broken⟩ := leave start guarded
        exact (broken (always.2 t b head).first).elim
    · intro along
      exact ⟨start, fun t b head =>
        (ih (keep start now along.1 head) later).mpr (along.2 t b head)⟩

/-- A run from a good state stays good exactly when it is guarded, when the guard
decides whether a single step does. -/
theorem always_iff_along (good : σ → Prop)
    (keep : ∀ {s a s' b}, good s → guard s a → step s a = .ok (s', b) → good s')
    (leave : ∀ {s a}, good s → ¬ guard s a → ∃ s' b, step s a = .ok (s', b) ∧ ¬ good s')
    (start : good s) : Always step good s as ↔ Along step guard s as :=
  always_iff_along_of_mem good (fun _ => True) (fun held _ => keep held) leave start
    fun _ _ => trivial

/-- What every step keeps holds beside whatever else always holds. -/
theorem always_and_iff (inv : σ → Prop) {good : σ → Prop}
    (keep : ∀ {s a s' b}, inv s → step s a = .ok (s', b) → inv s') (start : inv s) :
    Always step (fun s => inv s ∧ good s) s as ↔ Always step good s as := by
  induction as generalizing s with
  | nil => exact ⟨fun both => both.2, fun held => ⟨start, held⟩⟩
  | cons a as ih =>
    constructor
    · intro always
      exact ⟨always.1.2, fun t b head => (ih (keep start head)).mp (always.2 t b head)⟩
    · intro always
      exact ⟨⟨start, always.1⟩, fun t b head =>
        (ih (keep start head)).mpr (always.2 t b head)⟩

/-- When each step of a system does what the related step of another one does, and
answers the same, so does a run. -/
theorem run_refines {τ : Type} {step' : τ → α → Except ε (τ × β)} (rel : σ → τ → Prop)
    (allowed : α → Prop)
    (refines : ∀ {s t a}, rel s t → allowed a →
      ∃ s' t' b, step s a = .ok (s', b) ∧ step' t a = .ok (t', b) ∧ rel s' t')
    {t : τ} (start : rel s t) (all : ∀ a ∈ as, allowed a) :
    ∃ s' t' bs, run step s as = .ok (s', bs) ∧ run step' t as = .ok (t', bs) ∧ rel s' t' := by
  induction as generalizing s t with
  | nil => exact ⟨s, t, [], rfl, rfl, start⟩
  | cons a as ih =>
    obtain ⟨now, later⟩ := List.forall_mem_cons.mp all
    obtain ⟨m, n, b, head, head', mid⟩ := refines start now
    obtain ⟨s', t', bs, tail, tail', ends⟩ := ih mid later
    exact ⟨s', t', b :: bs, run_cons head tail, run_cons head' tail', ends⟩

/-- What the first effective input latches stays for good. -/
theorem run_latch (effective : α → Prop) (fresh synced : σ → Prop)
    (stay : ∀ {s a s' b}, fresh s → ¬ effective a → step s a = .ok (s', b) → fresh s')
    (latch : ∀ {s a s' b}, fresh s → effective a → step s a = .ok (s', b) → synced s')
    (keep : ∀ {s a s' b}, synced s → step s a = .ok (s', b) → synced s')
    (start : fresh s) (completed : run step s as = .ok (t, bs)) :
    (∃ a ∈ as, effective a) ∧ synced t ∨ (∀ a ∈ as, ¬ effective a) ∧ fresh t := by
  induction as generalizing s bs with
  | nil =>
    cases completed
    exact Or.inr ⟨nofun, start⟩
  | cons a as ih =>
    obtain ⟨m, b, rest, head, tail, -⟩ := of_run_cons completed
    by_cases now : effective a
    · refine Or.inl ⟨⟨a, List.mem_cons_self, now⟩, ?_⟩
      exact run_keeps synced keep (latch start now head) tail
    · rcases ih (stay start now head) tail with ⟨⟨a', mem, found⟩, held⟩ | ⟨none, held⟩
      · exact Or.inl ⟨⟨a', List.mem_cons_of_mem a mem, found⟩, held⟩
      · exact Or.inr ⟨List.forall_mem_cons.mpr ⟨now, none⟩, held⟩

end Rules

/-! ## Two runs -/

/-- Two runs over the same inputs, but for extra ones that only the second is
given.  `shared` holds of every common input in both runs, `extra` of every
additional one. -/
inductive TwoRuns (step : σ → α → Except ε (σ × β)) (shared extra : σ → α → Prop) :
    σ → σ → List α → List α → σ → σ → Prop
  | done (s s' : σ) : TwoRuns step shared extra s s' [] [] s s'
  | both {s s' m m' t t' : σ} {a : α} {b b' : β} {as as' : List α} (first : shared s a)
      (second : shared s' a) (head : step s a = .ok (m, b)) (head' : step s' a = .ok (m', b'))
      (rest : TwoRuns step shared extra m m' as as' t t') :
      TwoRuns step shared extra s s' (a :: as) (a :: as') t t'
  | more {s s' m' t t' : σ} {a : α} {b' : β} {as as' : List α} (second : extra s' a)
      (head' : step s' a = .ok (m', b')) (rest : TwoRuns step shared extra s m' as as' t t') :
      TwoRuns step shared extra s s' as (a :: as') t t'

/-- A relation between the states and the remaining inputs that common inputs
keep and extra inputs keep relates the ends. -/
theorem TwoRuns.related {shared extra : σ → α → Prop}
    (rel : σ → σ → List α → List α → Prop)
    (both : ∀ {s s' t t' a b b' as as'}, rel s s' (a :: as) (a :: as') → shared s a →
      shared s' a → step s a = .ok (t, b) → step s' a = .ok (t', b') → rel t t' as as')
    (more : ∀ {s s' t' a b' as as'}, rel s s' as (a :: as') → extra s' a →
      step s' a = .ok (t', b') → rel s t' as as')
    {s s' t t' : σ} (runs : TwoRuns step shared extra s s' as as' t t')
    (start : rel s s' as as') : rel t t' [] [] := by
  induction runs with
  | done s s' => exact start
  | both first second head head' _ ih => exact ih (both start first second head head')
  | more second head' _ ih => exact ih (more start second head')

end StepRun
