import Mathlib.Data.List.Basic

/-!
# Programs that can be interrupted

A program over a type `σ` of states is run in a state to an outcome: the state it ends in,
the value it returns or the exception it throws, and the states in which it can be
interrupted, which are the states just before each of its steps. An update that is not a
step changes the state without a point of interruption of its own.

`wp C prog Q s` says that `prog`, run in `s`, can only be interrupted in states that satisfy
`C`, and ends with a result and in a state that satisfy `Q`. The rules below compute it along
the structure of a program.
-/

namespace Crash

/-- What running a program gives. -/
structure Outcome (σ ε α : Type) where
  /-- The states just before each step, in order. -/
  crashes : List σ
  /-- The state the program ends in. -/
  final : σ
  /-- The value returned, or the exception thrown. -/
  value : Except ε α

/-- A program over states `σ` with exceptions `ε` and values `α`. -/
def Program (σ ε α : Type) : Type := σ → Outcome σ ε α

namespace Program

variable {σ τ ε α β : Type}

/-- The program that returns `a`. -/
def ret (a : α) : Program σ ε α := fun s => ⟨[], s, .ok a⟩

/-- Run `x`, then, unless it threw, the program `f` of its value. -/
def andThen (x : Program σ ε α) (f : α → Program σ ε β) : Program σ ε β := fun s =>
  match (x s).value with
  | .ok a => ⟨(x s).crashes ++ (f a (x s).final).crashes, (f a (x s).final).final,
      (f a (x s).final).value⟩
  | .error e => ⟨(x s).crashes, (x s).final, .error e⟩

instance : Monad (Program σ ε) where
  pure := ret
  bind := andThen

/-- A step: the program can be interrupted before it. -/
def step (f : σ → σ) : Program σ ε Unit := fun s => ⟨[s], f s, .ok ()⟩

/-- An update that is not a step. -/
def update (f : σ → σ) : Program σ ε Unit := fun s => ⟨[], f s, .ok ()⟩

/-- The value of `f` at the current state. -/
def gets (f : σ → α) : Program σ ε α := fun s => ⟨[], s, .ok (f s)⟩

/-- Throw the exception `e`. -/
def raise (e : ε) : Program σ ε α := fun s => ⟨[], s, .error e⟩

/-- Run `x`; if it throws, run the update `f` and throw the exception again. -/
def onError (x : Program σ ε α) (f : σ → σ) : Program σ ε α := fun s =>
  match (x s).value with
  | .ok a => ⟨(x s).crashes, (x s).final, .ok a⟩
  | .error e => ⟨(x s).crashes, f (x s).final, .error e⟩

/-- Run a program over a part of the state, given by how it is read and put back. -/
def zoom (part : σ → τ) (put : σ → τ → σ) (x : Program τ ε α) : Program σ ε α := fun s =>
  ⟨(x (part s)).crashes.map (put s), put s (x (part s)).final, (x (part s)).value⟩

/-- Run `f` on each element in turn. -/
def forEach (f : β → Program σ ε Unit) : List β → Program σ ε Unit
  | [] => pure ()
  | b :: bs => do
      f b
      forEach f bs

/-- Run `f` on each element in turn and collect the values. -/
def mapEach {γ : Type} (f : β → Program σ ε γ) : List β → Program σ ε (List γ)
  | [] => pure []
  | b :: bs => do
      let c ← f b
      let cs ← mapEach f bs
      return c :: cs

/-- The value of a program that cannot throw. -/
def output (x : Program σ Empty α) (s : σ) : α :=
  match (x s).value with
  | .ok a => a

/-- Continue with `k` on a value; an exception must satisfy `Q` itself. -/
def orElse (k : α → σ → Prop) (Q : Except ε β → σ → Prop) : Except ε α → σ → Prop
  | .ok a, s => k a s
  | .error e, s => Q (.error e) s

@[simp]
theorem orElse_ok (k : α → σ → Prop) (Q : Except ε β → σ → Prop) (a : α) (s : σ) :
  orElse k Q (.ok a) s ↔ k a s
  := Iff.rfl

@[simp]
theorem orElse_error (k : α → σ → Prop) (Q : Except ε β → σ → Prop) (e : ε) (s : σ) :
  orElse k Q (.error e) s ↔ Q (.error e) s
  := Iff.rfl

/-- Run in `s`, the program `x` can only be interrupted in states satisfying `C`, and ends
with a result and in a state satisfying `Q`. -/
def wp (C : σ → Prop) (x : Program σ ε α) (Q : Except ε α → σ → Prop) (s : σ) : Prop :=
  (∀ c ∈ (x s).crashes, C c) ∧ Q (x s).value (x s).final

variable {C C' : σ → Prop} {s : σ}

/-! ### Rules -/

variable {Q : Except ε α → σ → Prop}

@[simp]
theorem wp_pure (a : α) :
  wp C (pure a : Program σ ε α) Q s ↔ Q (.ok a) s
  := by
  simp [wp, pure, ret]

@[simp]
theorem wp_bind {Q : Except ε β → σ → Prop} (x : Program σ ε α) (f : α → Program σ ε β) :
  wp C (x >>= f) Q s ↔ wp C x (orElse (fun a => wp C (f a) Q) Q) s
  := by
  rcases h : (x s).value with e | a
  · simp [wp, bind, andThen, h]
  · simp only [wp, bind, andThen, h, List.mem_append, orElse_ok]
    constructor
    · rintro ⟨hc, hq⟩
      exact ⟨fun c hx => hc c (.inl hx), fun c hf => hc c (.inr hf), hq⟩
    · rintro ⟨hx, hf, hq⟩
      refine ⟨?_, hq⟩
      rintro c (hc | hc)
      · apply hx c hc
      · apply hf c hc

@[simp]
theorem wp_step {Q : Except ε Unit → σ → Prop} (f : σ → σ) :
  wp C (step f) Q s ↔ C s ∧ Q (.ok ()) (f s)
  := by
  simp [wp, step]

@[simp]
theorem wp_update {Q : Except ε Unit → σ → Prop} (f : σ → σ) :
  wp C (update f) Q s ↔ Q (.ok ()) (f s)
  := by
  simp [wp, update]

@[simp]
theorem wp_gets (f : σ → α) :
  wp C (gets f) Q s ↔ Q (.ok (f s)) s
  := by
  simp [wp, gets]

@[simp]
theorem wp_raise (e : ε) :
  wp C (raise e) Q s ↔ Q (.error e) s
  := by
  simp [wp, raise]

@[simp]
theorem wp_zoom (part : σ → τ) (put : σ → τ → σ) (x : Program τ ε α) :
  wp C (zoom part put x) Q s
    ↔ wp (fun t => C (put s t)) x (fun r t => Q r (put s t)) (part s)
  := by
  simp [wp, zoom]

variable {x : Program σ ε α}

/-- The conditions of `wp` can be weakened. -/
theorem wp_mono {Q Q' : Except ε α → σ → Prop} (h : wp C x Q s) (hC : ∀ c, C c → C' c)
    (hQ : ∀ r t, Q r t → Q' r t) :
  wp C' x Q' s
  := by
  constructor
  · intro c hc
    apply hC c (h.1 c hc)
  · apply hQ _ _ h.2

theorem wp_trivial (x : Program σ ε α) :
  wp (fun _ => True) x (fun _ _ => True) s
  := ⟨fun _ _ => trivial, trivial⟩

/-- Two `wp` of the same program hold together. -/
theorem wp_and {Q Q' : Except ε α → σ → Prop} (h : wp C x Q s) (h' : wp C' x Q' s) :
  wp (fun c => C c ∧ C' c) x (fun r t => Q r t ∧ Q' r t) s
  := ⟨fun c hc => ⟨h.1 c hc, h'.1 c hc⟩, h.2, h'.2⟩

/-- What `wp` says of a program that ran to its end. -/
theorem wp_final (h : wp C x Q s) :
  Q (x s).value (x s).final
  := h.2

/-- Applying a function to what a program returns does not change the state it ends in. -/
theorem final_map (x : Program σ ε α) (f : α → β) (s : σ) :
  ((do return f (← x) : Program σ ε β) s).final = (x s).final
  := by
  change (andThen x (fun a => ret (f a)) s).final = (x s).final
  rw [andThen]
  cases (x s).value <;> rfl

@[simp]
theorem wp_onError {f : σ → σ} :
  wp C (onError x f) Q s
    ↔ wp C x (fun r t => match r with
        | .ok a => Q (.ok a) t
        | .error e => Q (.error e) (f t)) s
  := by
  rw [wp, onError, wp]
  split
  · apply Iff.rfl
  · apply Iff.rfl

variable {f : β → Program σ ε Unit}

/-- A loop keeps an invariant of the elements it has passed, if each round does. -/
theorem wp_forEach {I : List β → σ → Prop} (bs : List β)
    (round : ∀ done b rest s, bs = done ++ b :: rest → I done s →
      wp C (f b) (fun r t => r = .ok () ∧ I (done ++ [b]) t) s)
    (h : I [] s) :
  wp C (forEach f bs) (fun r t => r = .ok () ∧ I bs t) s
  := by
  -- The elements already passed are `done`, the induction is on those to come.
  suffices key : ∀ rest done s, bs = done ++ rest → I done s →
      wp C (forEach f rest) (fun r t => r = .ok () ∧ I bs t) s by
    apply key bs [] s rfl h
  intro rest
  induction rest with
  | nil =>
      intro done s hbs hI
      rw [List.append_nil] at hbs
      subst hbs
      simpa [forEach] using hI
  | cons b rest ih =>
      intro done s hbs hI
      rw [forEach, wp_bind]
      apply wp_mono (round done b rest s hbs hI)
      · exact fun _ hc => hc
      · rintro r t ⟨rfl, ht⟩
        apply ih (done ++ [b]) t _ ht
        rw [hbs, List.append_assoc]
        rfl

/-- A loop that ends without an exception keeps an invariant of the elements it has passed, if each
round does that ends so. -/
theorem wp_forEach_of_ok {I : List β → σ → Prop} (bs : List β)
    (round : ∀ done b rest s, bs = done ++ b :: rest → I done s →
      wp C (f b) (fun r t => r = .ok () → I (done ++ [b]) t) s)
    (h : I [] s) :
  wp C (forEach f bs) (fun r t => r = .ok () → I bs t) s
  := by
  suffices key : ∀ rest done s, bs = done ++ rest → I done s →
      wp C (forEach f rest) (fun r t => r = .ok () → I bs t) s by
    apply key bs [] s rfl h
  intro rest
  induction rest with
  | nil =>
      intro done s hbs hI
      rw [List.append_nil] at hbs
      subst hbs
      rw [forEach, wp_pure]
      exact fun _ => hI
  | cons b rest ih =>
      intro done s hbs hI
      rw [forEach, wp_bind]
      apply wp_mono (round done b rest s hbs hI)
      · exact fun _ hc => hc
      · intro r t hr
        cases r with
        | error e =>
            rw [orElse_error]
            rintro ⟨⟩
        | ok u =>
            rw [orElse_ok]
            apply ih (done ++ [b]) t _ (hr rfl)
            rw [hbs, List.append_assoc]
            rfl

/-- A loop that collects values keeps an invariant of the elements it has passed, if each round
does. -/
theorem wp_mapEach {γ : Type} {f : β → Program σ ε γ} {value : β → γ} {I : List β → σ → Prop}
    (bs : List β)
    (round : ∀ done b rest s, bs = done ++ b :: rest → I done s →
      wp C (f b) (fun r t => r = .ok (value b) ∧ I (done ++ [b]) t) s)
    (h : I [] s) :
  wp C (mapEach f bs) (fun r t => r = .ok (bs.map value) ∧ I bs t) s
  := by
  suffices key : ∀ rest done s, bs = done ++ rest → I done s →
      wp C (mapEach f rest) (fun r t => r = .ok (rest.map value) ∧ I bs t) s by
    apply key bs [] s rfl h
  intro rest
  induction rest with
  | nil =>
      intro done s hbs hI
      rw [List.append_nil] at hbs
      subst hbs
      simpa [mapEach] using hI
  | cons b rest ih =>
      intro done s hbs hI
      rw [mapEach, wp_bind]
      apply wp_mono (round done b rest s hbs hI)
      · exact fun _ hc => hc
      · rintro r t ⟨rfl, ht⟩
        rw [orElse_ok, wp_bind]
        apply wp_mono (ih (done ++ [b]) t (by rw [hbs, List.append_assoc]; rfl) ht)
        · exact fun _ hc => hc
        · rintro r t ⟨rfl, ht⟩
          simpa using ht

theorem mapEach_map {γ δ : Type} (f : β → Program σ ε γ) (g : δ → β) (bs : List δ) :
  mapEach f (bs.map g) = mapEach (fun b => f (g b)) bs
  := by
  induction bs with
  | nil => rfl
  | cons b bs ih => rw [List.map_cons, mapEach, mapEach, ih]

/-- The value of a program that cannot throw, from its `wp`. -/
theorem output_eq {x : Program σ Empty α} {a : α} (h : wp C x (fun r _ => r = .ok a) s) :
  output x s = a
  := by
  rw [output]
  split
  rename_i b hb
  have := wp_final h
  rw [hb] at this
  exact Except.ok.inj this

/-! ### Invariants -/

/-- Run in a state that satisfies `I`, the program ends in one, whether it throws or not. -/
def Preserves (I : σ → Prop) (x : Program σ ε α) : Prop := ∀ s, I s → I (x s).final

section Preserves

variable {I : σ → Prop}

theorem Preserves.of_wp (h : ∀ s, I s → wp (fun _ => True) x (fun _ t => I t) s) :
  Preserves I x
  := fun s hs => (h s hs).2

theorem preserves_pure (a : α) :
  Preserves I (pure a : Program σ ε α)
  := fun _ hs => hs

theorem preserves_gets (f : σ → α) :
  Preserves I (gets f : Program σ ε α)
  := fun _ hs => hs

theorem preserves_raise (e : ε) :
  Preserves I (raise e : Program σ ε α)
  := fun _ hs => hs

theorem preserves_update {f : σ → σ} (hf : ∀ s, I s → I (f s)) :
  Preserves I (update f : Program σ ε Unit)
  := hf

theorem Preserves.bind {f : α → Program σ ε β} (hx : Preserves I x) (hf : ∀ a, Preserves I (f a)) :
  Preserves I (x >>= f)
  := by
  intro s hs
  simp only [Bind.bind, andThen]
  split
  · exact hf _ _ (hx s hs)
  · exact hx s hs

theorem Preserves.onError {f : σ → σ} (hx : Preserves I x) (hf : ∀ s, I s → I (f s)) :
  Preserves I (onError x f)
  := by
  intro s hs
  rw [Program.onError]
  split
  · exact hx s hs
  · exact hf _ (hx s hs)

theorem Preserves.forEach (hf : ∀ b, Preserves I (f b)) (bs : List β) :
  Preserves I (forEach f bs)
  := by
  induction bs with
  | nil => exact preserves_pure ()
  | cons b bs ih => exact (hf b).bind (fun _ => ih)

end Preserves

end Program

end Crash
