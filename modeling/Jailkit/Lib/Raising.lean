import Jailkit.Lib.Program
import Mathlib.Order.Defs.Unbundled

/-!
Programs that can raise: a run ends with a value or with an exception, and what follows
a raised exception is not run.

`Holds` is the weakest precondition with one postcondition for each kind of end. `Along`
adds what relates the state at the end to the one at the beginning, however the run ends.
-/
namespace Jailkit

def Raising (Call : Type) (Res : Call → Type) (Exn α : Type) :=
  Prog Call Res (Except Exn α)

namespace Raising

variable {Call : Type} {Res : Call → Type} {Exn α β σ : Type}

def andThen (f : α → Raising Call Res Exn β) : Except Exn α → Prog Call Res (Except Exn β)
  | .ok a => f a
  | .error e => .ret (.error e)

instance : Monad (Raising Call Res Exn) where
  pure a := Prog.ret (.ok a)
  bind p f := Prog.bind p (andThen f)

def raise (e : Exn) : Raising Call Res Exn α := Prog.ret (.error e)

/-- The end of a program as a value: what an `except` clause looks at. -/
def attempt (p : Raising Call Res Exn α) : Raising Call Res Exn (Except Exn α) :=
  Prog.bind p fun r => Prog.ret (.ok r)

def lift (p : Prog Call Res α) : Raising Call Res Exn α :=
  Prog.bind p fun a => Prog.ret (.ok a)

def ends (Q : α → σ → Prop) (E : Exn → σ → Prop) : Except Exn α → σ → Prop
  | .ok a, s => Q a s
  | .error e, s => E e s

/-- In every run from `s` each call meets `G`, a value returned meets `Q` and an exception
raised meets `E`. -/
def Holds (M : Prog.Machine Call Res σ) (G : σ → Call → Prop) (p : Raising Call Res Exn α)
    (Q : α → σ → Prop) (E : Exn → σ → Prop) (s : σ) : Prop :=
  Prog.Always M G p (ends Q E) s

variable {M : Prog.Machine Call Res σ} {G : σ → Call → Prop} {E E' : Exn → σ → Prop} {s : σ}

theorem holds_pure (a : α) {Q : α → σ → Prop} (h : Q a s) :
    Holds M G (pure a : Raising Call Res Exn α) Q E s := h

theorem holds_mono {p : Raising Call Res Exn α} {Q Q' : α → σ → Prop}
    (h : Holds M G p Q E s) (hQ : ∀ a s', Q a s' → Q' a s')
    (hE : ∀ e s', E e s' → E' e s') : Holds M G p Q' E' s := by
  apply Prog.always_mono h
  intro r s' hr
  cases r with
  | ok a => exact hQ a s' hr
  | error e => exact hE e s' hr

theorem holds_bind {p : Raising Call Res Exn α} {f : α → Raising Call Res Exn β}
    {Q : β → σ → Prop} (h : Holds M G p (fun a s' => Holds M G (f a) Q E s') E s) :
    Holds M G (p >>= f) Q E s := by
  apply (Prog.always_bind p (andThen f) (ends Q E) s).mpr
  apply Prog.always_mono h
  intro r s' hr
  cases r with
  | ok a => exact hr
  | error e => exact hr

theorem holds_attempt {p : Raising Call Res Exn α} {Q : Except Exn α → σ → Prop}
    (h : Holds M G p (fun a s' => Q (.ok a) s') (fun e s' => Q (.error e) s') s) :
    Holds M G (attempt p) Q E s := by
  apply (Prog.always_bind p _ (ends Q E) s).mpr
  apply Prog.always_mono h
  intro r s' hr
  cases r with
  | ok a => exact hr
  | error e => exact hr

variable {P : Call → Prop}

theorem only_pure (a : α) : Prog.Only P (pure a : Raising Call Res Exn α) := trivial

theorem only_bind {p : Raising Call Res Exn α} {f : α → Raising Call Res Exn β}
    (hp : Prog.Only P p) (hf : ∀ a, Prog.Only P (f a)) :
    Prog.Only P (p >>= f : Raising Call Res Exn β) := by
  apply Prog.only_bind hp
  intro r
  cases r with
  | ok a => exact hf a
  | error e => exact trivial

theorem only_attempt {p : Raising Call Res Exn α} (hp : Prog.Only P p) :
    Prog.Only P (attempt p) :=
  Prog.only_bind hp fun _ => trivial

/-- What the calls of a program keep holds however it ends. -/
theorem holds_of_only {p : Raising Call Res Exn α} {I : σ → Prop} (hp : Prog.Only P p)
    (hI : ∀ s c r s', P c → I s → M s c r s' → I s') (hG : ∀ s c, P c → I s → G s c)
    (hs : I s) : Holds M G p (fun _ s' => I s') (fun _ s' => I s') s := by
  apply Prog.always_mono (Prog.always_of_only hp hI hG hs)
  intro r s' h
  cases r with
  | ok a => exact h
  | error e => exact h

/-- The end of a run is related to its beginning by `R`, and a value returned meets `Q`. -/
def Along (M : Prog.Machine Call Res σ) (G : σ → Call → Prop) (R : σ → σ → Prop)
    (p : Raising Call Res Exn α) (Q : α → σ → Prop) (s : σ) : Prop :=
  Holds M G p (fun a s' => R s s' ∧ Q a s') (fun _ s' => R s s') s

variable {R : σ → σ → Prop} {Q : α → σ → Prop}

theorem along_pure [Std.Refl R] (a : α) (h : Q a s) :
    Along M G R (pure a : Raising Call Res Exn α) Q s := ⟨Std.Refl.refl s, h⟩

theorem along_raise [Std.Refl R] (e : Exn) : Along M G R (raise e : Raising Call Res Exn α) Q s :=
  Std.Refl.refl s

theorem along_bind [IsTrans σ R] {p : Raising Call Res Exn α} {f : α → Raising Call Res Exn β}
    {Q' : β → σ → Prop} (hp : Along M G R p Q s)
    (hf : ∀ a s', R s s' → Q a s' → Along M G R (f a) Q' s') :
    Along M G R (p >>= f) Q' s := by
  apply holds_bind
  apply holds_mono hp
  · intro a s' ⟨hR, hQ⟩
    apply holds_mono (hf a s' hR hQ)
    · exact fun b s'' ⟨hR', hb⟩ => ⟨IsTrans.trans s s' s'' hR hR', hb⟩
    · exact fun e s'' hR' => IsTrans.trans s s' s'' hR hR'
  · exact fun e s' hR => hR

theorem along_mono {p : Raising Call Res Exn α} {Q' : α → σ → Prop}
    {R' : σ → σ → Prop} (h : Along M G R p Q s) (hR : ∀ s', R s s' → R' s s')
    (hQ : ∀ a s', Q a s' → Q' a s') : Along M G R' p Q' s :=
  holds_mono h (fun a s' ha => ⟨hR s' ha.1, hQ a s' ha.2⟩) fun _ s' he => hR s' he

theorem along_related {p : Raising Call Res Exn α} (h : Along M G R p Q s) :
    Along M G R p (fun a s' => R s s' ∧ Q a s') s :=
  holds_mono h (fun _ _ ha => ⟨ha.1, ha⟩) fun _ _ he => he

theorem along_attempt {p : Raising Call Res Exn α} {Q : Except Exn α → σ → Prop}
    (hp : Along M G R p (fun a s' => Q (.ok a) s') s)
    (he : ∀ e s', R s s' → Q (.error e) s') : Along M G R (attempt p) Q s := by
  apply holds_attempt
  apply holds_mono hp
  · exact fun a s' h => h
  · exact fun e s' hR => ⟨hR, he e s' hR⟩

/-- What follows an `attempt` goes on from a value that meets `Q`, or from any exception. -/
theorem along_handle [IsTrans σ R] {p : Raising Call Res Exn α}
    {f : Except Exn α → Raising Call Res Exn β} {Q' : β → σ → Prop} (hp : Along M G R p Q s)
    (hok : ∀ a s', R s s' → Q a s' → Along M G R (f (.ok a)) Q' s')
    (he : ∀ e s', R s s' → Along M G R (f (.error e)) Q' s') :
    Along M G R (attempt p >>= f) Q' s := by
  have hend : Along M G R (attempt p) (fun r s' => R s s' → Along M G R (f r) Q' s') s := by
    apply along_attempt
    · exact along_mono hp (fun _ hR => hR) fun a s' ha hR => hok a s' hR ha
    · exact fun e s' _ hR => he e s' hR
  exact along_bind hend fun r s' hR h => h hR

theorem along_of_only [Std.Refl R] [IsTrans σ R] {p : Raising Call Res Exn α}
    (hp : Prog.Only P p) (hstep : ∀ s c r s', P c → M s c r s' → R s s') (hG : ∀ s c, P c → G s c) (s : σ) :
    Along M G R p (fun _ _ => True) s := by
  have h : Holds M G p (fun _ s' => R s s') (fun _ s' => R s s') s := by
    apply holds_of_only hp
    · exact fun s₁ c r s₂ hc hR hM => IsTrans.trans s s₁ s₂ hR (hstep s₁ c r s₂ hc hM)
    · exact fun s₁ c hc _ => hG s₁ c hc
    · exact Std.Refl.refl s
  exact holds_mono h (fun _ _ hR => ⟨hR, trivial⟩) fun _ _ hR => hR

end Raising
end Jailkit
