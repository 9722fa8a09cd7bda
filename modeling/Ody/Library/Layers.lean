import Mathlib.Logic.Nonempty
import Ody.Library.Interleaving

/-!
# Programs over implemented calls

A program over the calls of one interface runs on another one when each call is
implemented by a program over the calls of the other. Between two steps of an
implementation the other programs go on, so an implemented call is not atomic.

`layer` is the interface as its users may see it: one step of it leads from a
state to all states in which an implementation may return, whatever happens in the
meantime. A program that is safe over the layer is safe when its calls are replaced
by their implementations. What an implementation takes from outside, such as a
clock value, is supplied for each call; an implementation that fails ends the
program.
-/

namespace Ody.Library.Interleaving

variable {S Call Call' α ε σ : Type} {Reply : Call → Type} {Reply' : Call' → Type}

/-- Replace each call by its implementation. -/
def Program.implement
    (impl : σ → (c : Call) → Program Call' Reply' (Except ε (Reply c))) :
    (Nat → σ) → Program Call Reply α → Program Call' Reply' (Except ε α)
  | _, .done a => .done (.ok a)
  | supply, .call c next => (impl (supply 0) c).bind fun
      | .error err => .done (.error err)
      | .ok r => (next r).implement impl fun n => supply (n + 1)

section Safe

variable {G : Type} {sys : System S G Call' Reply'} {I : S → Prop} {R Gu : S → S → Prop}
  {Q : α → G → S → Prop}

/-- A program that is safe for several promises keeps them all. -/
theorem Safe.all {κ : Type} [Nonempty κ] {Q : κ → α → G → S → Prop}
    {p : Program Call' Reply' α} {g : G} {s : S} (h : ∀ k, Safe sys I R Gu (Q k) p g s) :
    Safe sys I R Gu (fun a g s => ∀ k, Q k a g s) p g s := by
  induction p generalizing g s with
  | done a => exact h
  | call c next ih =>
      intro s' hR hI ha r s'' hs
      obtain ⟨hI', hG, -⟩ := h (Classical.arbitrary κ) s' hR hI ha r s'' hs
      exact ⟨hI', hG, ih r fun k => (h k s' hR hI ha r s'' hs).2.2⟩

/-- What happens from the start of a safe program to its end is interference for the others. -/
theorem Safe.along (hrefl : ∀ s, R s s)
    (htrans : ∀ a b c, I a → I b → I c → R a b → R b c → R a c)
    (hguar : ∀ a b, Gu a b → R a b) {p : Program Call' Reply' α} {g : G} {s : S} (hI : I s)
    (h : Safe sys I R Gu Q p g s) :
    Safe sys I R Gu (fun a g s' => I s' ∧ R s s' ∧ Q a g s') p g s := by
  induction p generalizing g s with
  | done a => exact ⟨hI, hrefl s, h⟩
  | call c next ih =>
      intro s' hR hI' ha r s'' hs
      obtain ⟨hI'', hG, hnext⟩ := h s' hR hI' ha r s'' hs
      have hstep : R s s'' := htrans s s' s'' hI hI' hI'' hR (hguar _ _ hG)
      refine ⟨hI'', hG, Safe.weaken (ih r hI'' hnext) ?_⟩
      rintro a g last ⟨hlast, hR', hQ⟩
      exact ⟨hlast, htrans s s'' last hI hI'' hlast hstep hR', hQ⟩

/-- A fact that interference keeps may be used as part of the invariant. -/
theorem Safe.carry {P : S → Prop} (hstable : ∀ s s', P s → R s s' → I s' → P s')
    {p : Program Call' Reply' α} {g : G} {s : S} (hP : P s)
    (h : Safe sys (fun s => I s ∧ P s) R Gu Q p g s) :
    Safe sys I R Gu (fun a g s => Q a g s ∧ P s) p g s := by
  induction p generalizing g s with
  | done a => exact ⟨h, hP⟩
  | call c next ih =>
      intro s' hR hI ha r s'' hs
      obtain ⟨⟨hI', hP'⟩, hG, hnext⟩ := h s' hR ⟨hI, hstable s s' hP hR hI⟩ ha r s'' hs
      exact ⟨hI', hG, ih r hP' hnext⟩

/-- A stronger invariant and another guarantee that every issued call keeps. -/
theorem Safe.strengthen {J : S → Prop} {R' Gu' : S → S → Prop} {ok : Call' → Prop}
    (hJ : ∀ s, J s → I s) (hR : ∀ s s', R' s s' → R s s')
    (hok : ∀ s g c r s', J s → ok c → sys.allowed s g c → sys.step s c r s' → I s' → Gu s s' →
      J s' ∧ Gu' s s')
    {p : Program Call' Reply' α} {g : G} {s : S} (h : Safe sys I R Gu Q p g s) (hp : p.Issues ok) :
    Safe sys J R' Gu' Q p g s := by
  induction p generalizing g s with
  | done a => exact h
  | call c next ih =>
      intro s' hR' hs' ha r s'' hs
      obtain ⟨hI, hG, hnext⟩ := h s' (hR s s' hR') (hJ s' hs') ha r s'' hs
      obtain ⟨hs'', hG'⟩ := hok s' g c r s'' hs' hp.1 ha hs hI hG
      exact ⟨hs'', hG', ih r hnext (hp.2 r)⟩

end Safe

/-! ## The layer -/

section Layer

variable (sys : System S Unit Call' Reply') (I : S → Prop) (R Gu : S → S → Prop)
  (impl : σ → (c : Call) → Program Call' Reply' (Except ε (Reply c)))

/-- One step of an implemented call. It returns what every promise of the implementation admits. -/
def layer : System S Unit Call Reply where
  step := fun s c r s' => ∃ x, ∀ Q : Except ε (Reply c) → Unit → S → Prop,
    Safe sys I R Gu Q (impl x c) () s → Q (.ok r) () s'
  start := ()
  observe := fun _ _ g => g
  allowed := fun _ _ _ => True

variable {sys I R Gu impl}

section Rules

variable (hrefl : ∀ s, R s s) (htrans : ∀ a b c, I a → I b → I c → R a b → R b c → R a c)
  (hguar : ∀ a b, Gu a b → R a b)

include hrefl htrans hguar

/-- What an implementation promises, its call promises. -/
theorem callTriple_layer {P : S → Prop} {c : Call} {Q : Reply c → S → Prop}
    (hstable : ∀ s s', P s → R s s' → I s' → P s')
    (h : ∀ x, Triple sys I R Gu (fun _ s => I s ∧ P s) (impl x c)
      fun reply _ s => ∀ r, reply = .ok r → Q r s) :
    CallTriple (layer sys I R Gu impl) I R R (fun _ s => P s) c fun r _ s => Q r s := by
  rintro g s hP s' hR hI - r s'' ⟨x, hstep⟩
  have hsafe := (h x () s' ⟨hI, hstable s s' hP hR hI⟩).along hrefl htrans hguar hI
  obtain ⟨hI', hR', hQ⟩ := hstep _ hsafe
  exact ⟨hI', hR', hQ r rfl⟩

end Rules

/-- A call that is safe over the layer has a safe implementation: otherwise every state, also one
that violates the invariant, could be the result of a step. -/
theorem safe_of_layer [∀ c, Nonempty (Reply c)] (hbad : ∃ s, ¬I s) {c : Call}
    {Q : Reply c → S → Prop} {s : S} (x : σ)
    (h : ∀ r s', (layer sys I R Gu impl).step s c r s' → I s' ∧ Q r s') :
    Safe sys I R Gu (fun reply _ s' => ∀ r, reply = .ok r → I s' ∧ Q r s') (impl x c) () s := by
  obtain ⟨bad, hbad⟩ := hbad
  by_cases hpromise : ∃ Q : Except ε (Reply c) → Unit → S → Prop,
      Safe sys I R Gu Q (impl x c) () s
  · let Promise := { Q : Except ε (Reply c) → Unit → S → Prop // Safe sys I R Gu Q (impl x c) () s }
    have hnonempty : Nonempty Promise := hpromise.elim fun Q hQ => ⟨⟨Q, hQ⟩⟩
    have hall : Safe sys I R Gu (fun reply g s' => ∀ promise : Promise, promise.1 reply g s')
        (impl x c) () s := Safe.all fun promise => promise.2
    refine hall.weaken ?_
    rintro reply g s' hpromises r rfl
    exact h r s' ⟨x, fun Q hQ => hpromises ⟨Q, hQ⟩⟩
  · have hstuck : (layer sys I R Gu impl).step s c (Classical.arbitrary (Reply c)) bad :=
      ⟨x, fun Q hQ => absurd ⟨Q, hQ⟩ hpromise⟩
    exact absurd (h _ bad hstuck).1 hbad

/-- A program that is safe over the layer is safe with its implementation. -/
theorem Safe.implement [∀ c, Nonempty (Reply c)] (hrefl : ∀ s, R s s) (hbad : ∃ s, ¬I s)
    {p : Program Call Reply α} {s : S} (hI : I s)
    (h : Safe (layer sys I R Gu impl) I R R (fun _ _ _ => True) p () s) (supply : Nat → σ) :
    Safe sys I R Gu (fun _ _ _ => True) (p.implement impl supply) () s := by
  induction p generalizing s supply with
  | done a => exact trivial
  | call c next ih =>
      have hcall : Safe sys I R Gu (fun reply _ s' => ∀ r, reply = .ok r →
          I s' ∧ Safe (layer sys I R Gu impl) I R R (fun _ _ _ => True) (next r) () s')
          (impl (supply 0) c) () s := by
        apply safe_of_layer hbad
        intro r s' hstep
        obtain ⟨hI', -, hnext⟩ := h s (hrefl s) hI trivial r s' hstep
        exact ⟨hI', hnext⟩
      rw [Program.implement]
      apply Safe.bind sys I R Gu hcall
      rintro reply _ s' hreply
      cases reply with
      | error err => exact trivial
      | ok r => exact ih r (hreply r rfl).1 (hreply r rfl).2 _

end Layer

end Ody.Library.Interleaving
