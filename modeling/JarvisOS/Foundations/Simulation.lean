import JarvisOS.Foundations.Footprint

/-!
# One program under two handlers

A program does from `t` under one handler what it does from `s` under another: it returns the same
result, and the two final states are related again (`Simulates`). A sequence follows part by part
(`Simulates.bind`), and a part whose actions are known to satisfy `S` follows if each such action
does (`Runs.simulates`).
-/

namespace Foundations.Prog

variable {Op R α β σ τ : Type}

section Simulates

variable (h : Op → σ → R × σ) (h' : Op → τ → R × τ)

/-- What the program returns from `s` under `h` it returns from `t` under `h'`, and the final states
are related. -/
def Simulates (Sim : σ → τ → Prop) (p : Prog Op R α) (s : σ) (t : τ) : Prop :=
  ∀ a s', run h p s = some (a, s') → ∃ t', run h' p t = some (a, t') ∧ Sim s' t'

variable {h h'} {Sim Sim' : σ → τ → Prop} {p : Prog Op R α} {f : α → Prog Op R β} {s s' : σ} {t : τ}
  {a : α}

theorem Simulates.of_run (hrun : run h p s = some (a, s'))
    (hex : ∃ t', run h' p t = some (a, t') ∧ Sim s' t') : Simulates h h' Sim p s t := by
  intro b u hu
  obtain ⟨rfl, rfl⟩ := Prod.mk.inj (Option.some.inj (hrun.symm.trans hu))
  exact hex

theorem simulates_ret (hsim : Sim s t) : Simulates h h' Sim (ret a) s t :=
  .of_run rfl ⟨t, rfl, hsim⟩

/-- **One action** with the same answer. -/
theorem simulates_act {o : Op} {k : R → Prog Op R α} (ho : (h' o t).1 = (h o s).1)
    (hk : Simulates h h' Sim (k (h o s).1) (h o s).2 (h' o t).2) : Simulates h h' Sim
      (act o k) s t := by
  intro a s' hrun
  rw [run_act, ho]
  exact hk a s' hrun

/-- **A sequence** follows part by part. -/
theorem Simulates.bind (hp : Simulates h h' Sim' p s t)
    (hf : ∀ a s' t', run h p s = some (a, s') → Sim' s' t' → Simulates h h' Sim (f a) s' t') :
    Simulates h h' Sim (p >>= f) s t := by
  intro b u hrun
  rw [run_bind] at hrun
  obtain ⟨⟨a, s'⟩, hs', hrun⟩ := Option.bind_eq_some_iff.1 hrun
  obtain ⟨t', ht', hsim⟩ := hp a s' hs'
  rw [run_bind_of_run h' ht']
  exact hf a s' t' hs' hsim b u hrun

/-- A sequence whose first part has a known run. -/
theorem Simulates.bind_of_run (hp : Simulates h h' Sim' p s t) (hrun : run h p s = some (a, s'))
    (hf : ∀ t', Sim' s' t' → Simulates h h' Sim (f a) s' t') : Simulates h h' Sim
      (p >>= f) s t := by
  refine hp.bind fun b u t' hu hsim => ?_
  obtain ⟨rfl, rfl⟩ := Prod.mk.inj (Option.some.inj (hrun.symm.trans hu))
  exact hf t' hsim

/-- **A run follows** if each of its actions does. -/
theorem Runs.simulates {P : Op → Prop} {S : Op → R → Prop} (hrun : Runs h S p s a s')
    (hP : Only P p)
    (hstep : ∀ o s t, P o → S o (h o s).1 → Sim s t →
      (h' o t).1 = (h o s).1 ∧ Sim (h o s).2 (h' o t).2)
    (hsim : Sim s t) : Simulates h h' Sim p s t := by
  induction p generalizing s t with
  | ret b => exact simulates_ret hsim
  | act o k ih =>
    obtain ⟨ho, hk⟩ := runs_act.1 hrun
    obtain ⟨hanswer, hnext⟩ := hstep o s t hP.1 ho hsim
    exact simulates_act hanswer (ih _ hk (hP.2 _) hnext)
  | spin => cases hrun.1

end Simulates

end Foundations.Prog
