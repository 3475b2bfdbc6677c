import JarvisOS.Foundations.Resumption

/-!
# Rules for one interrupt

`Interrupted h tick p s Q` says that the program `p`, run from `s` with the interrupt `tick` let in
after any number of its actions, returns, and that result and final state satisfy `Q`. It is proved
along the program: before each action the interrupt comes and the rest of the program runs on the
state it leaves (`Returns`), or the action is executed and the interrupt comes later
(`interrupted_act`).
-/

namespace Foundations

namespace Prog

variable {Op R α β σ : Type} {h : Op → σ → R × σ} {tick : σ → Option σ} {s t u : σ} {a : α}
  {p : Prog Op R α} {f : α → Prog Op R β} {o : Op} {k : R → Prog Op R α}
  {P Q : α → σ → Prop} {Q' : β → σ → Prop}

/-- Run from `s`, the program returns, and its result and final state satisfy `Q`. -/
def Returns (h : Op → σ → R × σ) (p : Prog Op R α) (s : σ) (Q : α → σ → Prop) : Prop :=
  ∃ a t, run h p s = some (a, t) ∧ Q a t

/-- The program returns with `Q` wherever the interrupt comes. -/
def Interrupted (h : Op → σ → R × σ) (tick : σ → Option σ) (p : Prog Op R α) (s : σ)
    (Q : α → σ → Prop) : Prop :=
  ∀ n, ∃ a t, runInterrupted h tick n p s = some (a, t) ∧ Q a t

theorem Returns.mono (hp : Returns h p s P) (hPQ : ∀ a t, P a t → Q a t) : Returns h p s Q := by
  obtain ⟨a, t, hrun, hP⟩ := hp
  exact ⟨a, t, hrun, hPQ a t hP⟩

theorem Interrupted.mono (hp : Interrupted h tick p s P) (hPQ : ∀ a t, P a t → Q a t) :
    Interrupted h tick p s Q := fun n => by
  obtain ⟨a, t, hrun, hP⟩ := hp n
  exact ⟨a, t, hrun, hPQ a t hP⟩

theorem Runs.returns {S : Op → R → Prop} (hp : Runs h S p s a t) (hQ : Q a t) :
    Returns h p s Q :=
  ⟨a, t, hp.1, hQ⟩

@[simp] theorem returns_ret : Returns h (ret a : Prog Op R α) s Q ↔ Q a s := by
  refine ⟨fun ⟨b, t, hrun, hQ⟩ => ?_, fun hQ => ⟨a, s, rfl, hQ⟩⟩
  obtain ⟨rfl, rfl⟩ := Prod.mk.inj (Option.some.inj hrun)
  exact hQ

theorem returns_act : Returns h (act o k) s Q ↔ Returns h (k (h o s).1) (h o s).2 Q := Iff.rfl

/-- **A sequence returns** if its parts do. -/
theorem returns_bind :
    Returns h (p >>= f) s Q' ↔ Returns h p s fun a t => Returns h (f a) t Q' := by
  unfold Returns
  rw [run_bind]
  rcases run h p s with _ | ⟨a, t⟩
  · simp
  · simp

theorem Returns.bind_of_run (hp : run h p s = some (a, t)) (hf : Returns h (f a) t Q') :
    Returns h (p >>= f) s Q' :=
  returns_bind.2 ⟨a, t, hp, hf⟩

/-- The second part of a sequence that returns. -/
theorem Returns.of_bind_run (hpf : Returns h (p >>= f) s Q') (hp : run h p s = some (a, t)) :
    Returns h (f a) t Q' := by
  unfold Returns at hpf ⊢
  rwa [run_bind_of_run h hp] at hpf

/-- **After the program has returned**, only the interrupt is left. -/
theorem interrupted_ret :
    Interrupted h tick (ret a : Prog Op R α) s Q ↔ ∃ u, tick s = some u ∧ Q a u := by
  constructor
  · intro hr
    obtain ⟨b, t, hrun, hQ⟩ := hr 1
    obtain ⟨u, hu, e⟩ := Option.map_eq_some_iff.1 hrun
    obtain ⟨rfl, rfl⟩ := Prod.mk.inj e
    exact ⟨u, hu, hQ⟩
  · rintro ⟨u, hu, hQ⟩ n
    refine ⟨a, u, ?_, hQ⟩
    cases n with
    | zero => rw [runInterrupted, hu, Option.bind_some, run_ret]
    | succ n => rw [runInterrupted, hu, Option.map_some]

/-- **The interrupt comes before the next action or after it.** -/
theorem interrupted_act : Interrupted h tick (act o k) s Q ↔
    (∃ u, tick s = some u ∧ Returns h (act o k) u Q) ∧
      Interrupted h tick (k (h o s).1) (h o s).2 Q := by
  constructor
  · intro hp
    refine ⟨?_, fun n => hp (n + 1)⟩
    obtain ⟨a, t, hrun, hQ⟩ := hp 0
    obtain ⟨u, hu, hrun⟩ := Option.bind_eq_some_iff.1 hrun
    exact ⟨u, hu, a, t, hrun, hQ⟩
  · rintro ⟨⟨u, hu, a, t, hrun, hQ⟩, hlater⟩ n
    cases n with
    | zero => exact ⟨a, t, by rw [runInterrupted, hu, Option.bind_some, hrun], hQ⟩
    | succ n => exact hlater n

/-- An interrupt that does nothing. -/
theorem Returns.interrupted (hp : Returns h p s Q) (ht : ∀ s, tick s = some s) :
    Interrupted h tick p s Q := by
  induction p generalizing s with
  | ret a => exact interrupted_ret.2 ⟨s, ht s, returns_ret.1 hp⟩
  | act o k ih => exact interrupted_act.2 ⟨⟨s, ht s, hp⟩, ih _ hp⟩
  | spin => exact absurd hp.choose_spec.choose_spec.1 (Option.some_ne_none _).symm

/-- A program that can be interrupted anywhere can be interrupted at once. -/
theorem Interrupted.first (hp : Interrupted h tick p s Q) :
    ∃ u, tick s = some u ∧ Returns h p u Q := by
  obtain ⟨a, t, hrun, hQ⟩ := hp 0
  obtain ⟨u, hu, hrun⟩ := Option.bind_eq_some_iff.1 hrun
  exact ⟨u, hu, a, t, hrun, hQ⟩

/-- **A sequence**: the interrupt comes in the first part, or in the second. -/
theorem Interrupted.bind (hrun : run h p s = some (a, t))
    (hp : Interrupted h tick p s fun a t => Returns h (f a) t Q')
    (hf : Interrupted h tick (f a) t Q') : Interrupted h tick (p >>= f) s Q' := by
  induction p generalizing s with
  | ret b =>
    obtain ⟨rfl, rfl⟩ := Prod.mk.inj (Option.some.inj hrun)
    exact hf
  | act o k ih =>
    obtain ⟨⟨u, hu, hfirst⟩, hlater⟩ := interrupted_act.1 hp
    exact interrupted_act.2 ⟨⟨u, hu, returns_bind.2 hfirst⟩, ih _ hrun hlater⟩
  | spin => cases hrun

/-- **The first part of a sequence**: after the interrupt the rest of it runs on, and then the
second. -/
theorem Interrupted.of_bind (hpf : Interrupted h tick (p >>= f) s Q') :
    Interrupted h tick p s fun a t => Returns h (f a) t Q' := by
  induction p generalizing s with
  | ret a => exact interrupted_ret.2 hpf.first
  | act o k ih =>
    obtain ⟨⟨u, hu, hfirst⟩, hlater⟩ := interrupted_act.1 hpf
    exact interrupted_act.2 ⟨⟨u, hu, returns_bind.1 hfirst⟩, ih _ hlater⟩
  | spin =>
    obtain ⟨a, t, hrun, -⟩ := hpf 1
    cases hrun

/-- **The second part of a sequence**, when the interrupt has not come in the first. -/
theorem Interrupted.of_bind_run (hpf : Interrupted h tick (p >>= f) s Q')
    (hrun : run h p s = some (a, t)) : Interrupted h tick (f a) t Q' := by
  induction p generalizing s with
  | ret b =>
    obtain ⟨rfl, rfl⟩ := Prod.mk.inj (Option.some.inj hrun)
    exact hpf
  | act o k ih => exact ih _ (interrupted_act.1 hpf).2 hrun
  | spin => cases hrun

/-- What the interrupt does is a matter of the part of the state that the program works on. -/
theorem Part.runInterrupted_lift {τ : Type} (P : Part τ σ) {tick' : τ → Option τ} {x y : τ}
    (ht : ∀ s, tick' (P.put s x) = (tick s).map fun u => P.put u y) (n : ℕ) (p : Prog Op R α) :
    runInterrupted (P.lift h) tick' n p x =
      (runInterrupted h tick n p (P.get x)).map fun r => (r.1, P.put r.2 y) := by
  induction n generalizing x p with
  | zero =>
    have hx := ht (P.get x)
    rw [P.put_get] at hx
    rw [runInterrupted, runInterrupted, hx]
    rcases tick (P.get x) with _ | u
    · rfl
    · simp only [Option.map_some, Option.bind_some, P.run_lift, P.get_put, P.put_put]
  | succ n ih =>
    cases p with
    | ret a =>
      have hx := ht (P.get x)
      rw [P.put_get] at hx
      rw [runInterrupted, runInterrupted, hx, Option.map_map, Option.map_map]
      rfl
    | act o k =>
      have hx : ∀ s, tick' (P.put s (P.lift h o x).2) = (tick s).map fun u => P.put u y :=
        fun s => by
          rw [Part.lift, P.put_put]
          exact ht s
      rw [runInterrupted, runInterrupted, ih hx, Part.lift, P.get_put]
    | spin => rfl

end Prog

end Foundations
