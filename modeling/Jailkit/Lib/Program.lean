/-!
Programs as trees of the calls they issue. A machine says what a call may answer and
what it does to the state; a run of the program is a path through its tree.

`Always` is the weakest precondition over all runs, so a program is taken apart at its
binds, and a part that issues harmless calls only keeps every invariant of them.
-/
namespace Jailkit

inductive Prog (Call : Type) (Res : Call → Type) (α : Type) where
  | ret (a : α)
  | call (c : Call) (k : Res c → Prog Call Res α)

namespace Prog

variable {Call : Type} {Res : Call → Type} {α β σ : Type}

def bind : Prog Call Res α → (α → Prog Call Res β) → Prog Call Res β
  | ret a, f => f a
  | call c k, f => call c fun r => (k r).bind f

instance : Monad (Prog Call Res) where
  pure := ret
  bind := bind

def perform (c : Call) : Prog Call Res (Res c) := call c ret

/-- From a state, a call may give this answer and leave that state. -/
abbrev Machine (Call : Type) (Res : Call → Type) (σ : Type) :=
  σ → (c : Call) → Res c → σ → Prop

/-- Every call may answer anything. -/
def anyAnswer : Machine Call Res Unit := fun _ _ _ _ => True

/-- Every call may answer anything, and is kept with its answer. -/
def traced : Machine Call Res (List ((c : Call) × Res c)) :=
  fun t c r t' => t' = t ++ [⟨c, r⟩]

/-- Some run from `s` comes to issue `d`, in state `s'`. -/
inductive Reaches (M : Machine Call Res σ) : Prog Call Res α → σ → Call → σ → Prop where
  | here {c k s} : Reaches M (call c k) s c s
  | later {c k s r s₁ d s'} : M s c r s₁ → Reaches M (k r) s₁ d s' →
      Reaches M (call c k) s d s'

/-- Some run from `s` ends with this result, in state `s'`. -/
inductive Returns (M : Machine Call Res σ) : Prog Call Res α → σ → α → σ → Prop where
  | ret {a s} : Returns M (ret a) s a s
  | call {c k s r s₁ a s'} : M s c r s₁ → Returns M (k r) s₁ a s' →
      Returns M (call c k) s a s'

/-- In every run from `s` each call meets `G` where it is issued, and the result `Q`. -/
def Always (M : Machine Call Res σ) (G : σ → Call → Prop) :
    Prog Call Res α → (α → σ → Prop) → σ → Prop
  | ret a, Q, s => Q a s
  | call c k, Q, s => G s c ∧ ∀ r s', M s c r s' → (k r).Always M G Q s'

/-- Every call the program can issue is one of these. -/
def Only (P : Call → Prop) : Prog Call Res α → Prop
  | ret _ => True
  | call c k => P c ∧ ∀ r, (k r).Only P

/-- Every result the program can have is one of these, whatever the calls answer. -/
def Gives (P : α → Prop) : Prog Call Res α → Prop
  | ret a => P a
  | call _ k => ∀ r, (k r).Gives P

variable {M : Machine Call Res σ} {G : σ → Call → Prop} {P : Call → Prop}

theorem always_bind (p : Prog Call Res α) (f : α → Prog Call Res β) (Q : β → σ → Prop)
    (s : σ) :
    (p >>= f).Always M G Q s ↔ p.Always M G (fun a s' => (f a).Always M G Q s') s := by
  induction p generalizing s with
  | ret a => exact Iff.rfl
  | call c k ih =>
      refine and_congr_right fun _ => forall_congr' fun r => forall_congr' fun s' => ?_
      exact imp_congr_right fun _ => ih r s'

theorem always_perform_bind (c : Call) (f : Res c → Prog Call Res β) (Q : β → σ → Prop)
    (s : σ) :
    (perform c >>= f).Always M G Q s ↔
      G s c ∧ ∀ r s', M s c r s' → (f r).Always M G Q s' := Iff.rfl

theorem always_mono {p : Prog Call Res α} {Q Q' : α → σ → Prop} {s : σ}
    (h : p.Always M G Q s) (hQ : ∀ a s', Q a s' → Q' a s') : p.Always M G Q' s := by
  induction p generalizing s with
  | ret a => exact hQ a s h
  | call c k ih => exact ⟨h.1, fun r s' hM => ih r (h.2 r s' hM)⟩

/-- What holds of every run of a machine holds of those of one with fewer answers. -/
theorem always_of_more {M' : Machine Call Res σ} {p : Prog Call Res α} {Q : α → σ → Prop} {s : σ}
    (hM : ∀ s c r s', M' s c r s' → M s c r s') (h : p.Always M G Q s) : p.Always M' G Q s := by
  induction p generalizing s with
  | ret a => exact h
  | call c k ih => exact ⟨h.1, fun r s' hstep => ih r (h.2 r s' (hM s c r s' hstep))⟩

theorem guard_of_reaches {p : Prog Call Res α} {Q : α → σ → Prop} {s s' : σ} {d : Call}
    (h : p.Always M G Q s) (hr : Reaches M p s d s') : G s' d := by
  induction hr with
  | here => exact h.1
  | later hM _ ih => exact ih (h.2 _ _ hM)

theorem reaches_bind_left {p : Prog Call Res α} {f : α → Prog Call Res β} {s s' : σ}
    {d : Call} (hp : Reaches M p s d s') : Reaches M (p >>= f) s d s' := by
  induction hp with
  | here => exact .here
  | later hM _ ih => exact .later hM ih

theorem reaches_bind_right {p : Prog Call Res α} {f : α → Prog Call Res β} {s s₁ s' : σ}
    {a : α} {d : Call} (hp : Returns M p s a s₁) (hf : Reaches M (f a) s₁ d s') :
    Reaches M (p >>= f) s d s' := by
  induction hp with
  | ret => exact hf
  | call hM _ ih => exact .later hM (ih hf)

theorem returns_bind {p : Prog Call Res α} {f : α → Prog Call Res β} {s s₁ s' : σ}
    {a : α} {b : β} (hp : Returns M p s a s₁) (hf : Returns M (f a) s₁ b s') :
    Returns M (p >>= f) s b s' := by
  induction hp with
  | ret => exact hf
  | call hM _ ih => exact .call hM (ih hf)

@[simp] theorem returns_pure {a b : α} {s s' : σ} :
    Returns M (pure a : Prog Call Res α) s b s' ↔ b = a ∧ s' = s := by
  constructor
  · intro h
    cases h
    exact ⟨rfl, rfl⟩
  · intro ⟨ha, hs⟩
    subst ha hs
    exact .ret

@[simp] theorem returns_perform {c : Call} {r : Res c} {s s' : σ} :
    Returns M (perform c : Prog Call Res (Res c)) s r s' ↔ M s c r s' := by
  constructor
  · intro h
    cases h with
    | call hM h =>
        cases h
        exact hM
  · intro hM
    exact .call hM .ret

theorem returns_bind_iff {p : Prog Call Res α} {f : α → Prog Call Res β} {s s' : σ} {b : β} :
    Returns M (p >>= f) s b s' ↔ ∃ a s₁, Returns M p s a s₁ ∧ Returns M (f a) s₁ b s' := by
  constructor
  · intro h
    induction p generalizing s with
    | ret a => exact ⟨a, s, .ret, h⟩
    | call c k ih =>
        cases h with
        | call hM h =>
            obtain ⟨a, s₁, hp, hf⟩ := ih _ h
            exact ⟨a, s₁, .call hM hp, hf⟩
  · intro ⟨a, s₁, hp, hf⟩
    exact returns_bind hp hf

/-- A call of a sequence is one of the first part, or of the second after a result. -/
theorem reaches_bind_cases {p : Prog Call Res α} {f : α → Prog Call Res β} {s s' : σ}
    {d : Call} (h : Reaches M (p >>= f) s d s') :
    Reaches M p s d s' ∨ ∃ a s₁, Returns M p s a s₁ ∧ Reaches M (f a) s₁ d s' := by
  induction p generalizing s with
  | ret a => exact Or.inr ⟨a, s, .ret, h⟩
  | call c k ih =>
      cases h with
      | here => exact Or.inl .here
      | later hM h =>
          rcases ih _ h with h' | ⟨a, s₁, hret, h'⟩
          · exact Or.inl (.later hM h')
          · exact Or.inr ⟨a, s₁, .call hM hret, h'⟩

@[simp] theorem reaches_perform {c d : Call} {s s' : σ} :
    Reaches M (perform c : Prog Call Res (Res c)) s d s' ↔ d = c ∧ s' = s := by
  constructor
  · intro h
    cases h with
    | here => exact ⟨rfl, rfl⟩
    | later _ h => cases h
  · intro ⟨hd, hs⟩
    subst hd hs
    exact .here

/-- What is reached is reached where every call may answer anything. -/
theorem reaches_anyAnswer {p : Prog Call Res α} {s s' : σ} {d : Call} (h : Reaches M p s d s') :
    Reaches anyAnswer p () d () := by
  induction h with
  | here => exact .here
  | later _ _ ih => exact .later trivial ih

/-- A run of a machine with more in its states is one of the machine without. -/
theorem reaches_map {τ : Type} {M' : Machine Call Res τ} {f : τ → σ}
    (hM : ∀ t c r t', M' t c r t' → M (f t) c r (f t')) {p : Prog Call Res α} {t t' : τ} {d : Call}
    (h : Reaches M' p t d t') : Reaches M p (f t) d (f t') := by
  induction h with
  | here => exact .here
  | later hstep _ ih => exact .later (hM _ _ _ _ hstep) ih

theorem not_reaches_of_only {p : Prog Call Res α} {s s' : σ} {d : Call} (h : p.Only P)
    (hd : ¬ P d) : ¬ Reaches M p s d s' := by
  intro hr
  induction hr with
  | here => exact hd h.1
  | later _ _ ih => exact ih (h.2 _) hd

/-- The call is not one of the first part. -/
theorem reaches_past {p : Prog Call Res α} {f : α → Prog Call Res β} {s s' : σ} {d : Call}
    (hp : p.Only P) (hd : ¬ P d) (h : Reaches M (p >>= f) s d s') :
    ∃ a s₁, Returns M p s a s₁ ∧ Reaches M (f a) s₁ d s' :=
  (reaches_bind_cases h).resolve_left (not_reaches_of_only hp hd)

theorem trace_grows {p : Prog Call Res α} {t t' : List ((c : Call) × Res c)} {a : α}
    (h : Returns traced p t a t') : t <+: t' := by
  induction h with
  | ret => exact List.prefix_rfl
  | call hM _ ih =>
      rw [hM] at ih
      exact (List.prefix_append _ _).trans ih

@[simp] theorem only_pure (a : α) : (pure a : Prog Call Res α).Only P ↔ True := Iff.rfl

@[simp] theorem only_perform (c : Call) : (perform c : Prog Call Res (Res c)).Only P ↔ P c :=
  ⟨fun h => h.1, fun h => ⟨h, fun _ => trivial⟩⟩

theorem only_bind {p : Prog Call Res α} {f : α → Prog Call Res β} (hp : p.Only P)
    (hf : ∀ a, (f a).Only P) : (p >>= f).Only P := by
  induction p with
  | ret a => exact hf a
  | call c k ih => exact ⟨hp.1, fun r => ih r (hp.2 r)⟩

theorem gives_bind {P : β → Prop} {p : Prog Call Res α} {f : α → Prog Call Res β}
    (hf : ∀ a, (f a).Gives P) : (p >>= f).Gives P := by
  induction p with
  | ret a => exact hf a
  | call c k ih => exact fun r => ih r

theorem gives_of_returns {P : α → Prop} {p : Prog Call Res α} {s s' : σ} {a : α}
    (h : p.Gives P) (hr : Returns M p s a s') : P a := by
  induction hr with
  | ret => exact h
  | call _ _ ih => exact ih (h _)

theorem only_mono {P' : Call → Prop} {p : Prog Call Res α} (h : p.Only P)
    (hP : ∀ c, P c → P' c) : p.Only P' := by
  induction p with
  | ret a => exact trivial
  | call c k ih => exact ⟨hP c h.1, fun r => ih r (h.2 r)⟩

/-- What the calls of a program keep, its runs keep. -/
theorem always_of_only {p : Prog Call Res α} {I : σ → Prop} {s : σ} (hp : p.Only P)
    (hI : ∀ s c r s', P c → I s → M s c r s' → I s') (hG : ∀ s c, P c → I s → G s c)
    (hs : I s) : p.Always M G (fun _ s' => I s') s := by
  induction p generalizing s with
  | ret a => exact hs
  | call c k ih =>
      exact ⟨hG s c hp.1 hs, fun r s' hM => ih r (hp.2 r) (hI s c r s' hp.1 hs hM)⟩

/-- The run in which a fixed answer is given to each call, up to a call that is sought. -/
def drive (step : σ → (c : Call) → Option (Res c × σ)) (sought : Call → Bool) :
    Prog Call Res α → σ → Option (Call × σ)
  | ret _, _ => none
  | call c k, s =>
      if sought c then some (c, s)
      else
        match step s c with
        | none => none
        | some (r, s') => (k r).drive step sought s'

theorem reaches_of_drive {step : σ → (c : Call) → Option (Res c × σ)} {sought : Call → Bool}
    {p : Prog Call Res α} {s s' : σ} {d : Call}
    (hstep : ∀ s c r s', step s c = some (r, s') → M s c r s')
    (h : p.drive step sought s = some (d, s')) : Reaches M p s d s' := by
  induction p generalizing s with
  | ret a => simp [drive] at h
  | call c k ih =>
      simp only [drive] at h
      split at h
      · simp only [Option.some.injEq, Prod.mk.injEq] at h
        obtain ⟨rfl, rfl⟩ := h
        exact .here
      · cases hs : step s c with
        | none => simp [hs] at h
        | some rs =>
            rw [hs] at h
            exact .later (hstep s c rs.1 rs.2 hs) (ih rs.1 h)

theorem reaches_of_any {step : σ → (c : Call) → Option (Res c × σ)} {sought : Call → Bool}
    {p : Prog Call Res α} {s : σ} {check : Call × σ → Bool}
    (hstep : ∀ s c r s', step s c = some (r, s') → M s c r s')
    (h : (p.drive step sought s).any check = true) :
    ∃ d s', Reaches M p s d s' ∧ check (d, s') = true := by
  cases hd : p.drive step sought s with
  | none => simp [hd] at h
  | some x =>
      rw [hd] at h
      exact ⟨x.1, x.2, reaches_of_drive hstep hd, h⟩

theorem result_of_returns {p : Prog Call Res α} {Q : α → σ → Prop} {s s' : σ} {a : α}
    (h : p.Always M G Q s) (hr : Returns M p s a s') : Q a s' := by
  induction hr with
  | ret => exact h
  | call hM _ ih => exact ih (h.2 _ _ hM)

/-- The run in which a fixed answer is given to each call, up to the end. -/
def finish (step : σ → (c : Call) → Option (Res c × σ)) :
    Prog Call Res α → σ → Option (α × σ)
  | ret a, s => some (a, s)
  | call c k, s =>
      match step s c with
      | none => none
      | some (r, s') => (k r).finish step s'

theorem returns_of_finish {step : σ → (c : Call) → Option (Res c × σ)} {p : Prog Call Res α}
    {s s' : σ} {a : α} (hstep : ∀ s c r s', step s c = some (r, s') → M s c r s')
    (h : p.finish step s = some (a, s')) : Returns M p s a s' := by
  induction p generalizing s with
  | ret b =>
      cases h
      exact .ret
  | call c k ih =>
      simp only [finish] at h
      cases hs : step s c with
      | none => simp [hs] at h
      | some rs =>
          rw [hs] at h
          exact .call (hstep s c rs.1 rs.2 hs) (ih rs.1 h)

theorem returns_of_any {step : σ → (c : Call) → Option (Res c × σ)} {p : Prog Call Res α}
    {s : σ} {check : α × σ → Bool} (hstep : ∀ s c r s', step s c = some (r, s') → M s c r s')
    (h : (p.finish step s).any check = true) :
    ∃ a s', Returns M p s a s' ∧ check (a, s') = true := by
  cases hf : p.finish step s with
  | none => simp [hf] at h
  | some x =>
      rw [hf] at h
      exact ⟨x.1, x.2, returns_of_finish hstep hf, h⟩

theorem returns_mono {M' : Machine Call Res σ} {p : Prog Call Res α} {s s' : σ} {a : α}
    (hM : ∀ s c r s', M s c r s' → M' s c r s') (h : Returns M p s a s') :
    Returns M' p s a s' := by
  induction h with
  | ret => exact .ret
  | call hstep _ ih => exact .call (hM _ _ _ _ hstep) ih

/-- A program runs to its end where each call is answered. -/
theorem exists_returns (h : ∀ s c, ∃ r s', M s c r s') (p : Prog Call Res α) (s : σ) :
    ∃ a s', Returns M p s a s' := by
  induction p generalizing s with
  | ret a => exact ⟨a, s, .ret⟩
  | call c k ih =>
      obtain ⟨r, s₁, hM⟩ := h s c
      obtain ⟨a, s', hr⟩ := ih r s₁
      exact ⟨a, s', .call hM hr⟩

/-- The same machine, with notes taken of each step. -/
def noting {τ : Type} (M : Machine Call Res σ) (note : σ → σ → τ → τ) :
    Machine Call Res (σ × τ) :=
  fun s c r s' => M s.1 c r s'.1 ∧ s'.2 = note s.1 s'.1 s.2

theorem returns_noting {τ : Type} (note : σ → σ → τ → τ) {p : Prog Call Res α} {s s' : σ}
    {a : α} (h : Returns M p s a s') (t : τ) :
    ∃ t', Returns (noting M note) p (s, t) a (s', t') := by
  induction h generalizing t with
  | ret => exact ⟨t, .ret⟩
  | @call c k s r s₁ a s' hM _ ih =>
      obtain ⟨t', hr⟩ := ih (note s s₁ t)
      have hstep : noting M note (s, t) c r (s₁, note s s₁ t) := ⟨hM, rfl⟩
      exact ⟨t', .call hstep hr⟩

end Prog
end Jailkit
