import JarvisOS.Foundations.Resumption

/-!
# Actions and the states they are performed in

`Only P p` says that the program `p` contains no action outside `P`, whatever it is answered.
`Meets T p s` says that a run of `p` from `s` performs each action in a state that satisfies `T` of
it; `Performs` bounds the actions alone. The two meet where a program keeps a view of the state:
what it performs, it performs in states with that view (`Meets.of_only`). `ReturnsWithin n p` says
that the program returns after at most `n` actions, whatever it is answered.
-/

namespace Foundations.Prog

variable {Op R α β σ : Type}

/-! ## Programs without certain actions -/

/-- The program contains only actions in `P`. -/
def Only (P : Op → Prop) : Prog Op R α → Prop
  | ret _ => True
  | act o k => P o ∧ ∀ r, Only P (k r)
  | spin => True

section Only

variable {P : Op → Prop} {p : Prog Op R α} {f : α → Prog Op R β}

@[simp] theorem only_ret {a : α} : Only P (ret a : Prog Op R α) := trivial

@[simp] theorem only_act {o : Op} {k : R → Prog Op R α} :
    Only P (act o k) ↔ P o ∧ ∀ r, Only P (k r) := Iff.rfl

@[simp] theorem only_spin : Only P (spin : Prog Op R α) := trivial

theorem only_ite {c : Prop} [Decidable c] {q : Prog Op R α} (hp : Only P p) (hq : Only P q) :
    Only P (if c then p else q) := by
  split_ifs
  · exact hp
  · exact hq

theorem Only.bind (hp : Only P p) (hf : ∀ a, Only P (f a)) : Only P (p >>= f) := by
  induction p with
  | ret a => exact hf a
  | act o k ih => exact ⟨hp.1, fun r => ih r (hp.2 r)⟩
  | spin => trivial

end Only

/-! ## Programs that return -/

/-- Whatever it is answered, the program returns after at most `n` actions. -/
def ReturnsWithin : ℕ → Prog Op R α → Prop
  | _, ret _ => True
  | 0, act _ _ => False
  | n + 1, act _ k => ∀ r, ReturnsWithin n (k r)
  | _, spin => False

section ReturnsWithin

variable {p : Prog Op R α} {f : α → Prog Op R β} {n m : ℕ}

theorem returnsWithin_ret (n : ℕ) (a : α) : ReturnsWithin n (ret a : Prog Op R α) := by
  cases n <;> trivial

theorem returnsWithin_ite {c : Prop} [Decidable c] {q : Prog Op R α} (hp : ReturnsWithin n p)
    (hq : ReturnsWithin n q) : ReturnsWithin n (if c then p else q) := by
  split_ifs
  · exact hp
  · exact hq

theorem ReturnsWithin.mono (hp : ReturnsWithin n p) (hnm : n ≤ m) : ReturnsWithin m p := by
  induction p generalizing n m with
  | ret a => exact returnsWithin_ret m a
  | act o k ih =>
    cases n with
    | zero => exact absurd hp id
    | succ n =>
      cases m with
      | zero => exact absurd hnm (Nat.not_succ_le_zero _)
      | succ m => exact fun r => ih r (hp r) (Nat.le_of_succ_le_succ hnm)
  | spin => cases n <;> exact absurd hp id

/-- **A sequence** returns if its parts do. -/
theorem ReturnsWithin.bind (hp : ReturnsWithin n p) (hf : ∀ a, ReturnsWithin m (f a)) :
    ReturnsWithin (n + m) (p >>= f) := by
  induction p generalizing n with
  | ret a => exact (hf a).mono (Nat.le_add_left _ _)
  | act o k ih =>
    cases n with
    | zero => exact absurd hp id
    | succ n =>
      rw [Nat.succ_add]
      exact fun r => ih r (hp r)
  | spin => cases n <;> exact absurd hp id

theorem ReturnsWithin.run_eq (hp : ReturnsWithin n p) (h : Op → σ → R × σ) (s : σ) :
    ∃ a t, run h p s = some (a, t) ∧ (trace h p s).length ≤ n := by
  induction p generalizing n s with
  | ret a => exact ⟨a, s, rfl, Nat.zero_le _⟩
  | act o k ih =>
    cases n with
    | zero => exact absurd hp id
    | succ n =>
      obtain ⟨a, t, hrun, hlen⟩ := ih _ (hp _) (h o s).2
      exact ⟨a, t, hrun, Nat.succ_le_succ hlen⟩
  | spin => cases n <;> exact absurd hp id

end ReturnsWithin

/-! ## What holds when an action is performed -/

section Meets

variable (h : Op → σ → R × σ)

/-- The actions of a run from a state, with the states in which they are performed. -/
def visits : Prog Op R α → σ → List (σ × Op)
  | ret _, _ => []
  | act o k, s => (s, o) :: visits (k (h o s).1) (h o s).2
  | spin, _ => []

/-- Run from `s`, the program performs every action in a state that satisfies `T` of it. -/
def Meets (T : σ → Op → Prop) (p : Prog Op R α) (s : σ) : Prop := ∀ x ∈ visits h p s, T x.1 x.2

variable {h} {T : σ → Op → Prop} {p : Prog Op R α} {f : α → Prog Op R β} {s : σ}

theorem meets_ret {a : α} : Meets h T (ret a : Prog Op R α) s := fun _ hx => by simp [visits] at hx

theorem meets_act {o : Op} {k : R → Prog Op R α} :
    Meets h T (act o k) s ↔ T s o ∧ Meets h T (k (h o s).1) (h o s).2 := by
  unfold Meets
  rw [visits, List.forall_mem_cons]

/-- **A sequence** meets its bounds if its parts do. -/
theorem Meets.bind (hp : Meets h T p s) (hf : ∀ a t, run h p s = some (a, t) → Meets h T (f a) t) :
    Meets h T (p >>= f) s := by
  induction p generalizing s with
  | ret a => exact hf a s rfl
  | act o k ih =>
    obtain ⟨ho, hk⟩ := meets_act.1 hp
    exact meets_act.2 ⟨ho, ih _ hk hf⟩
  | spin => exact fun _ hx => by simp [visits] at hx

theorem Meets.bind_of_run {a : α} {t : σ} (hp : Meets h T p s) (hrun : run h p s = some (a, t))
    (hf : Meets h T (f a) t) : Meets h T (p >>= f) s := by
  refine hp.bind fun b u hu => ?_
  obtain ⟨rfl, rfl⟩ := Prod.mk.inj (Option.some.inj (hrun.symm.trans hu))
  exact hf

/-- **A program that keeps a view of the state** performs its actions in states with that view. -/
theorem Meets.of_only {V : Type} {P : Op → Prop} {S : Op → R → Prop} (view : σ → V)
    (hview : ∀ o, P o → ∀ t, view (h o t).2 = view t)
    (hT : ∀ o r t, P o → S o r → view t = view s → T t o)
    (hP : Only P p) (hS : Performs h S p s) : Meets h T p s := by
  have hall : ∀ u, view u = view s → Performs h S p u → Meets h T p u := by
    clear hS
    induction p with
    | ret a => exact fun _ _ _ => meets_ret
    | act o k ih =>
      intro u hu hS
      obtain ⟨ho, hk⟩ := performs_act.1 hS
      exact meets_act.2 ⟨hT o _ u hP.1 ho hu, ih _ (hP.2 _) _ ((hview o hP.1 u).trans hu) hk⟩
    | spin => exact fun _ _ _ _ hx => by simp [visits] at hx
  exact hall s rfl hS

theorem Meets.mono {T' : σ → Op → Prop} (hp : Meets h T p s) (hT : ∀ t o, T t o → T' t o) :
    Meets h T' p s := fun x hx => hT _ _ (hp x hx)

end Meets

end Foundations.Prog
