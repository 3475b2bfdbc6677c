import Mathlib.Control.Basic
import Mathlib.Tactic.Common

/-!
# Programs of atomic actions

A program performs actions of a type `Op`, each answered by a value of `R`, and returns a result.
What an action does is given separately by a handler `Op → σ → R × σ`, so that one program has
several readings:

* `run` executes it without interruption on a state (`run_bind`);
* `trace` lists the actions it performs; `Performs` bounds them, and `Runs` does so together with
  the result (`Runs.bind`);
* `runInterrupted` executes it with a state change, an interrupt, let in before one action.

A loop is given a bound on its iterations; a program that exceeds it is `spin`, and has no
result. Rules for programs with an interrupt are a module of their own.
-/

namespace Foundations

/-- Programs performing actions `Op` answered in `R`, with result in `α`. -/
inductive Prog (Op R α : Type)
  | ret (a : α)
  | act (o : Op) (k : R → Prog Op R α)
  /-- A loop that has used up its iterations. -/
  | spin

namespace Prog

variable {Op R α β σ : Type}

/-- Sequencing. -/
def bind : Prog Op R α → (α → Prog Op R β) → Prog Op R β
  | ret a, f => f a
  | act o k, f => act o fun r => (k r).bind f
  | spin, _ => spin

instance : Monad (Prog Op R) where
  pure := ret
  bind := bind

/-- The program of one action. -/
def perform (o : Op) : Prog Op R R := act o ret

@[simp] theorem pure_eq (a : α) : (pure a : Prog Op R α) = ret a := rfl

@[simp] theorem ret_bind (a : α) (f : α → Prog Op R β) : ret a >>= f = f a := rfl

@[simp] theorem act_bind (o : Op) (k : R → Prog Op R α) (f : α → Prog Op R β) :
    act o k >>= f = act o fun r => k r >>= f := rfl

@[simp] theorem spin_bind (f : α → Prog Op R β) : (spin : Prog Op R α) >>= f = spin := rfl

@[simp] theorem perform_bind (o : Op) (f : R → Prog Op R β) : perform o >>= f = act o f := rfl

theorem bind_assoc {γ : Type} (p : Prog Op R α) (f : α → Prog Op R β) (g : β → Prog Op R γ) :
    p >>= f >>= g = p >>= fun a => f a >>= g := by
  induction p with
  | ret a => rfl
  | act o k ih =>
    simp only [act_bind]
    exact congrArg (act o) (funext fun r => ih r)
  | spin => rfl

/-! ## Running to completion -/

section Run

variable (h : Op → σ → R × σ)

/-- Run a program without interruption: its result and the final state, or `none` if it spins. -/
def run : Prog Op R α → σ → Option (α × σ)
  | ret a, s => some (a, s)
  | act o k, s => run (k (h o s).1) (h o s).2
  | spin, _ => none

@[simp] theorem run_ret (a : α) (s : σ) : run h (ret a : Prog Op R α) s = some (a, s) := rfl

@[simp] theorem run_act (o : Op) (k : R → Prog Op R α) (s : σ) :
    run h (act o k) s = run h (k (h o s).1) (h o s).2 := rfl

@[simp] theorem run_spin (s : σ) : run h (spin : Prog Op R α) s = none := rfl

theorem run_bind (p : Prog Op R α) (f : α → Prog Op R β) (s : σ) :
    run h (p >>= f) s = (run h p s).bind fun r => run h (f r.1) r.2 := by
  induction p generalizing s with
  | ret a => rfl
  | act o k ih => exact ih _ _
  | spin => rfl

/-- Sequencing after a program with a known run. -/
theorem run_bind_of_run {p : Prog Op R α} {f : α → Prog Op R β} {s t : σ} {a : α}
    (hp : run h p s = some (a, t)) : run h (p >>= f) s = run h (f a) t := by
  rw [run_bind, hp]
  rfl

/-- The state after a run. -/
def after (p : Prog Op R α) (s : σ) : σ := ((run h p s).map Prod.snd).getD s

theorem run_eq_after {p : Prog Op R α} {s : σ} {a : α} (hp : (run h p s).map Prod.fst = some a) :
    run h p s = some (a, after h p s) := by
  obtain ⟨⟨b, t⟩, hrun, rfl⟩ := Option.map_eq_some_iff.1 hp
  rw [after, hrun]
  rfl

/-! ## The actions of a run -/

/-- The actions a program performs when run from a state, in order and with their answers. -/
def trace : Prog Op R α → σ → List (Op × R)
  | ret _, _ => []
  | act o k, s => (o, (h o s).1) :: trace (k (h o s).1) (h o s).2
  | spin, _ => []

@[simp] theorem trace_ret (a : α) (s : σ) : trace h (ret a : Prog Op R α) s = [] := rfl

@[simp] theorem trace_act (o : Op) (k : R → Prog Op R α) (s : σ) :
    trace h (act o k) s = (o, (h o s).1) :: trace h (k (h o s).1) (h o s).2 := rfl

theorem trace_bind_of_run {p : Prog Op R α} {f : α → Prog Op R β} {s t : σ} {a : α}
    (hp : run h p s = some (a, t)) :
    trace h (p >>= f) s = trace h p s ++ trace h (f a) t := by
  induction p generalizing s with
  | ret b =>
    obtain ⟨rfl, rfl⟩ := Prod.mk.inj (Option.some.inj hp)
    rfl
  | act o k ih => exact congrArg (_ :: ·) (ih _ hp)
  | spin => cases hp

/-- The actions of the program when run from `s`, with their answers, satisfy `S`. -/
def Performs (S : Op → R → Prop) (p : Prog Op R α) (s : σ) : Prop :=
  ∀ o ∈ trace h p s, S o.1 o.2

/-- Run from `s`, the program returns `a` in state `t`, and its actions satisfy `S`. -/
def Runs (S : Op → R → Prop) (p : Prog Op R α) (s : σ) (a : α) (t : σ) : Prop :=
  run h p s = some (a, t) ∧ Performs h S p s

variable {h} {S : Op → R → Prop} {p : Prog Op R α} {f : α → Prog Op R β} {s t u : σ} {a : α} {b : β}

theorem performs_ret : Performs h S (ret a : Prog Op R α) s := fun _ ho => by simp at ho

theorem performs_act {o : Op} {k : R → Prog Op R α} :
    Performs h S (act o k) s ↔ S o (h o s).1 ∧ Performs h S (k (h o s).1) (h o s).2 := by
  unfold Performs
  rw [trace_act, List.forall_mem_cons]

/-- The first part of a sequence performs what the sequence does. -/
theorem Performs.of_bind (hpf : Performs h S (p >>= f) s) : Performs h S p s := by
  induction p generalizing s with
  | ret a => exact performs_ret
  | act o k ih =>
    obtain ⟨ho, hk⟩ := performs_act.1 hpf
    exact performs_act.2 ⟨ho, ih _ hk⟩
  | spin => exact fun _ ho => by simp [trace] at ho

/-- The second part of a sequence performs what the sequence does. -/
theorem Performs.of_bind_run (hpf : Performs h S (p >>= f) s) (hp : run h p s = some (a, t)) :
    Performs h S (f a) t := by
  intro o ho
  refine hpf o ?_
  rw [trace_bind_of_run h hp]
  exact List.mem_append_right _ ho

theorem runs_ret : Runs h S (ret a : Prog Op R α) s a s := ⟨rfl, performs_ret⟩

theorem runs_ret_iff {c : α} : Runs h S (ret a : Prog Op R α) s c t ↔ c = a ∧ t = s := by
  refine ⟨fun hr => ?_, fun ⟨h1, h2⟩ => h1 ▸ h2 ▸ runs_ret⟩
  obtain ⟨rfl, rfl⟩ := Prod.mk.inj (Option.some.inj hr.1)
  exact ⟨rfl, rfl⟩

/-- **One action**: execute it and go on. -/
@[simp] theorem runs_act {o : Op} {k : R → Prog Op R α} :
    Runs h S (act o k) s a t ↔ S o (h o s).1 ∧ Runs h S (k (h o s).1) (h o s).2 a t := by
  rw [Runs, run_act, performs_act]
  exact and_left_comm

theorem Runs.bind (hp : Runs h S p s a t) (hf : Runs h S (f a) t b u) :
    Runs h S (p >>= f) s b u := by
  refine ⟨(run_bind_of_run h hp.1).trans hf.1, fun o ho => ?_⟩
  rw [trace_bind_of_run h hp.1, List.mem_append] at ho
  exact ho.elim (hp.2 o) (hf.2 o)

/-- A sequence runs in two parts. -/
theorem runs_bind : Runs h S (p >>= f) s b u ↔ ∃ a t, Runs h S p s a t ∧ Runs h S (f a) t b u := by
  refine ⟨fun hpf => ?_, fun ⟨a, t, hp, hf⟩ => hp.bind hf⟩
  induction p generalizing s with
  | ret c => exact ⟨c, s, runs_ret, hpf⟩
  | act o k ih =>
    obtain ⟨ho, hk⟩ := runs_act.1 hpf
    obtain ⟨a, t, hp, hf⟩ := ih _ hk
    exact ⟨a, t, runs_act.2 ⟨ho, hp⟩, hf⟩
  | spin => cases hpf.1

theorem Runs.mono {S' : Op → R → Prop} (hp : Runs h S p s a t) (hS : ∀ o r, S o r → S' o r) :
    Runs h S' p s a t :=
  ⟨hp.1, fun o ho => hS _ _ (hp.2 o ho)⟩

/-- A program has one run from a state. -/
theorem Runs.unique {c : α} (hp : Runs h S p s a t) (hc : run h p s = some (c, u)) :
    c = a ∧ u = t := by
  rw [hp.1] at hc
  obtain ⟨rfl, rfl⟩ := Prod.mk.inj (Option.some.inj hc)
  exact ⟨rfl, rfl⟩

/-! ## One interrupt -/

variable (h) (tick : σ → Option σ)

/-- Run a program with the interrupt `tick` let in after its first `n` actions, or right after
it has returned if it performs fewer. -/
def runInterrupted : ℕ → Prog Op R α → σ → Option (α × σ)
  | 0, p, s => (tick s).bind (run h p)
  | _ + 1, ret a, s => (tick s).map fun t => (a, t)
  | n + 1, act o k, s => runInterrupted n (k (h o s).1) (h o s).2
  | _ + 1, spin, _ => none

end Run

/-! ## Programs on a part of the state -/

/-- A part of type `σ` of states `τ`. -/
structure Part (τ σ : Type) where
  get : τ → σ
  put : σ → τ → τ
  get_put : ∀ s t, get (put s t) = s
  put_put : ∀ s s' t, put s' (put s t) = put s' t
  put_get : ∀ t, put (get t) t = t

namespace Part

variable {τ : Type} (P : Part τ σ) (h : Op → σ → R × σ)

/-- Actions on the part as actions on the whole state. -/
def lift (o : Op) (t : τ) : R × τ := ((h o (P.get t)).1, P.put (h o (P.get t)).2 t)

/-- A program on the part runs as it does on the part alone. -/
theorem run_lift (p : Prog Op R α) (t : τ) :
    run (P.lift h) p t = (run h p (P.get t)).map fun r => (r.1, P.put r.2 t) := by
  induction p generalizing t with
  | ret a => exact congrArg (fun u => some (a, u)) (P.put_get t).symm
  | act o k ih =>
    rw [run_act, run_act, ih]
    simp only [lift, P.get_put, P.put_put]
  | spin => rfl

end Part

end Prog

end Foundations
