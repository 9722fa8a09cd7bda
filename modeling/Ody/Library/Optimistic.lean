import Ody.Library.Interleaving

/-!
# Optimistic transactions

A transaction reads the values of the keys it watches, decides on a list of
commands, and commits them. The commit takes effect only if the watched keys
still have the values that were read; otherwise the transaction starts again,
up to a bound. A commit may also fail for no visible reason, as it does when a
watched key was written with its old value.

The proof rule is that of an atomic action: whatever happens between the read
and the commit, a commit that takes effect does what the body computes from the
state in which it takes effect.
-/

namespace Ody.Library.Optimistic

open Interleaving

/-- A store with watched keys and commands, and the other calls it answers. -/
structure Backend (S W V Cmd Other : Type) (R : Other → Type) where
  view : W → S → V
  apply : S → Cmd → S
  exec : S → (c : Other) → R c × S

/-- The atomic calls of a client. -/
inductive TxCall (W V Cmd Other : Type) where
  | other (c : Other)
  | watch (w : W)
  | commit (w : W) (image : V) (commands : List Cmd)

variable {S W V Cmd Other E α β : Type} {R : Other → Type}

/-- What a call returns; a commit returns whether it took effect. -/
@[reducible] def TxReply (R : Other → Type) : TxCall W V Cmd Other → Type
  | .other c => R c
  | .watch _ => V
  | .commit _ _ _ => Bool

/-- A client program. -/
abbrev TxProgram (W V Cmd : Type) {Other : Type} (R : Other → Type) (α : Type) :=
  Program (TxCall W V Cmd Other) (TxReply R) α

namespace Backend

variable (b : Backend S W V Cmd Other R)

/-- The state after a list of commands. -/
def applyAll (s : S) (commands : List Cmd) : S := commands.foldl b.apply s

/-- One atomic step of a client. -/
def Step (s : S) : (c : TxCall W V Cmd Other) → TxReply R c → S → Prop
  | .other c, r, s' => b.exec s c = (r, s')
  | .watch w, image, s' => b.view w s = image ∧ s = s'
  | .commit w image commands, ok, s' =>
      (ok = true ∧ b.view w s = image ∧ b.applyAll s commands = s') ∨ (ok = false ∧ s = s')

/-- The clients of a store, in the runs whose steps are allowed. -/
def system (allowed : S → TxCall W V Cmd Other → Prop) :
    System S Unit (TxCall W V Cmd Other) (TxReply R) where
  step := b.Step
  start := ()
  observe := fun _ _ g => g
  allowed := fun s _ c => allowed s c

end Backend

/-- Read, decide and commit, for at most `tries` rounds. A round may read more after it has begun to
watch. The body is told what the last round decided, if that was lost, and the number of rounds that
remain. -/
def attempt (w : W) (read : V → TxProgram W V Cmd R V)
    (body : Option α → Nat → V → Except E (α × List Cmd)) (contention : E) :
    Nat → Option α → TxProgram W V Cmd R (Except E α)
  | 0, _ => .done (.error contention)
  | tries + 1, lost => .call (.watch w) fun seen => (read seen).bind fun image =>
      match body lost tries image with
      | .error err => .done (.error err)
      | .ok (a, commands) => .call (.commit w image commands) fun ok =>
          if ok then .done (.ok a) else attempt w read body contention tries (some a)

/-- A transaction issues its reads and the commits that its body decides on. -/
theorem issues_attempt {ok : TxCall W V Cmd Other → Prop} {w : W}
    {read : V → TxProgram W V Cmd R V} {body : Option α → Nat → V → Except E (α × List Cmd)}
    {contention : E} (hwatch : ok (.watch w)) (hread : ∀ seen, (read seen).Issues ok)
    (hcommit : ∀ lost n image a commands, body lost n image = .ok (a, commands) →
      ok (.commit w image commands)) (tries : Nat) (lost : Option α) :
    (attempt w read body contention tries lost).Issues ok := by
  induction tries generalizing lost with
  | zero => trivial
  | succ tries ih =>
      refine ⟨hwatch, fun seen => (hread seen).bind fun image => ?_⟩
      cases hbody : body lost tries image with
      | error err => trivial
      | ok decision =>
          refine ⟨hcommit lost tries image _ _ hbody, fun committed => ?_⟩
          cases committed with
          | true => trivial
          | false => exact ih _

/-- A commit that took effect. -/
def Committed : (Σ c : TxCall W V Cmd Other, TxReply R c) → Prop
  | ⟨.commit _ _ _, ok⟩ => ok = true
  | _ => False

/-- A transaction whose effect is the last of the program. -/
theorem effectLast_attempt {w : W} {body : Option α → Nat → V → Except E (α × List Cmd)}
    {contention : E} {f : Except E α → TxProgram W V Cmd R β} {good : β → Prop}
    (hok : ∀ a, ∃ b, good b ∧ f (.ok a) = .done b)
    (herror : ∀ err, (f (.error err)).EffectLast Committed good) (tries : Nat) (lost : Option α) :
    ((attempt w .done body contention tries lost).bind f).EffectLast Committed good := by
  induction tries generalizing lost with
  | zero => exact herror contention
  | succ tries ih =>
      refine fun image => ⟨fun heffect => heffect.elim, fun _ => ?_⟩
      dsimp only [Program.bind]
      cases body lost tries image with
      | error err => exact herror err
      | ok decision =>
          obtain ⟨a, commands⟩ := decision
          intro ok
          cases ok with
          | true => exact ⟨fun _ => hok a, fun hnone => absurd rfl hnone⟩
          | false => exact ⟨fun heffect => absurd heffect Bool.false_ne_true, fun _ => ih _⟩

/-! ## Interleaved transactions -/

section Rules

variable {b : Backend S W V Cmd Other R} {allowed : S → TxCall W V Cmd Other → Prop}
  {I : S → Prop} {Rel Gu : S → S → Prop}

/-- A call outside of transactions. -/
theorem callTriple_other {P : S → Prop} {c : Other} {Q : R c → S → Prop}
    (h : ∀ s s', P s → Rel s s' → I s' → allowed s' (.other c) →
      I (b.exec s' c).2 ∧ Gu s' (b.exec s' c).2 ∧ Q (b.exec s' c).1 (b.exec s' c).2) :
    CallTriple (b.system allowed) I Rel Gu (fun _ s => P s) (.other c) fun r _ s => Q r s := by
  intro g s hP s' hrel hI hallowed r s'' hstep
  have hexec : b.exec s' c = (r, s'') := hstep
  have hspec := h s s' hP hrel hI hallowed
  rw [hexec] at hspec
  exact hspec

/-- A transaction keeps what its body keeps when it runs in one step. -/
theorem triple_attempt {P : S → Prop} {w : W} {read : V → TxProgram W V Cmd R V}
    {body : Option α → Nat → V → Except E (α × List Cmd)} {contention : E} {Q : α → S → Prop}
    (hrefl : ∀ s, I s → Gu s s) (hstable : ∀ s s', P s → Rel s s' → I s' → P s')
    (hread : ∀ seen, Triple (b.system allowed) I Rel Gu (fun _ s => P s) (read seen) fun _ _ s => P s)
    (hcommit : ∀ lost n s a commands, I s → P s → body lost n (b.view w s) = .ok (a, commands) →
      allowed s (.commit w (b.view w s) commands) →
      I (b.applyAll s commands) ∧ Gu s (b.applyAll s commands) ∧ Q a (b.applyAll s commands))
    (tries : Nat) (lost : Option α) :
    Triple (b.system allowed) I Rel Gu (fun _ s => P s)
      (attempt w read body contention tries lost) fun result _ s => ∀ a, result = .ok a → Q a s := by
  induction tries generalizing lost with
  | zero => exact Triple.done fun _ _ _ a h => nomatch h
  | succ tries ih =>
      rw [attempt]
      have hwatch : CallTriple (b.system allowed) I Rel Gu (fun _ s => P s) (.watch w)
          fun _ _ s => P s := by
        rintro g s hP s' hrel hI - image s'' ⟨-, rfl⟩
        exact ⟨hI, hrefl s' hI, hstable s s' hP hrel hI⟩
      refine Triple.call hwatch fun seen => (hread seen).bind fun image => ?_
      cases hbody : body lost tries image with
      | error err => exact Triple.done fun _ _ _ a h => nomatch h
      | ok decision =>
          obtain ⟨a, commands⟩ := decision
          have hround : CallTriple (b.system allowed) I Rel Gu (fun _ s => P s)
              (.commit w image commands)
              fun (ok : Bool) _ s => (ok = true → Q a s) ∧ (ok = false → P s) := by
            rintro g s hP s' hrel hI hallowed ok s'' (⟨rfl, rfl, rfl⟩ | ⟨rfl, rfl⟩)
            · obtain ⟨hI', hGu, hQ⟩ := hcommit lost tries s' a commands hI
                (hstable s s' hP hrel hI) hbody hallowed
              exact ⟨hI', hGu, fun _ => hQ, by simp⟩
            · exact ⟨hI, hrefl s' hI, by simp, fun _ => hstable s s' hP hrel hI⟩
          refine Triple.call hround fun ok => ?_
          cases ok with
          | true =>
              refine Triple.done fun _ s h a' ha' => ?_
              cases ha'
              exact h.1 rfl
          | false => exact (ih _).of fun _ s h => h.2 rfl

end Rules

/-! ## Transactions without interference -/

section Alone

variable [DecidableEq V] (b : Backend S W V Cmd Other R)

/-- Execute one call of a client. -/
def Backend.execCall (s : S) : (c : TxCall W V Cmd Other) → TxReply R c × S
  | .other c => b.exec s c
  | .watch w => (b.view w s, s)
  | .commit w image commands => if b.view w s = image then (true, b.applyAll s commands) else (false, s)

theorem Backend.step_execCall (s : S) (c : TxCall W V Cmd Other) :
    b.Step s c (b.execCall s c).1 (b.execCall s c).2 := by
  cases c with
  | other c => rfl
  | watch w => exact ⟨rfl, rfl⟩
  | commit w image commands =>
      by_cases himage : b.view w s = image
      · rw [Backend.execCall, if_pos himage]
        exact Or.inl ⟨rfl, himage, rfl⟩
      · rw [Backend.execCall, if_neg himage]
        exact Or.inr ⟨rfl, rfl⟩

/-- Run a program without interference. -/
def Backend.alone : TxProgram W V Cmd R α → S → α × S
  | .done a, s => (a, s)
  | .call c next, s => alone (next (b.execCall s c).1) (b.execCall s c).2

theorem Backend.alone_bind (p : TxProgram W V Cmd R α) (f : α → TxProgram W V Cmd R β) (s : S) :
    b.alone (p.bind f) s = b.alone (f (b.alone p s).1) (b.alone p s).2 := by
  induction p generalizing s with
  | done a => rfl
  | call c next ih => exact ih _ _

/-- The run without interference, as a run among others. -/
theorem Backend.among_alone (others : S → S → Prop) (p : TxProgram W V Cmd R α) (s : S) :
    ∃ log, Among (fun s c r s' => b.execCall s c = (r, s')) others s p log (b.alone p s).2
      (.done (b.alone p s).1) := by
  induction p generalizing s with
  | done a => exact ⟨[], Among.start⟩
  | call c next ih =>
      obtain ⟨log, hrest⟩ := ih (b.execCall s c).1 (b.execCall s c).2
      exact ⟨_, (Among.start.call rfl).append hrest⟩

section Rounds

variable {w : W} {body : Option α → Nat → V → Except E (α × List Cmd)} (contention : E)
  {others : S → S → Prop} {tries : Nat} {lost : Option α} {s s' : S} {a : α} {commands : List Cmd}
  (hbody : body lost tries (b.view w s) = .ok (a, commands))

include hbody

/-- A round starts with the read that its decision is based on. -/
theorem Backend.among_attempt_watch :
    Among (fun s c r s' => b.execCall s c = (r, s')) others s
      (attempt w .done body contention (tries + 1) lost : TxProgram W V Cmd R (Except E α))
      [⟨.watch w, b.view w s⟩] s (.call (.commit w (b.view w s) commands) fun ok =>
        if ok then .done (.ok a) else attempt w .done body contention tries (some a)) := by
  have hdecided : (match body lost tries (b.view w s) with
      | .error err => .done (.error err)
      | .ok (a, commands) => .call (.commit w (b.view w s) commands) fun ok =>
          if ok then .done (.ok a) else attempt w .done body contention tries (some a) :
        TxProgram W V Cmd R (Except E α)) = .call (.commit w (b.view w s) commands) fun ok =>
          if ok then .done (.ok a) else attempt w .done body contention tries (some a) := by
    rw [hbody]
  rw [← hdecided]
  exact Among.call Among.start rfl

/-- A round that nobody disturbs commits. -/
theorem Backend.among_attempt_commit :
    Among (fun s c r s' => b.execCall s c = (r, s')) others s
      (attempt w .done body contention (tries + 1) lost : TxProgram W V Cmd R (Except E α))
      [⟨.watch w, b.view w s⟩, ⟨.commit w (b.view w s) commands, true⟩] (b.applyAll s commands)
      (.done (.ok a)) :=
  (b.among_attempt_watch contention hbody).call (if_pos rfl)

/-- A round in which a watched key changes is followed by the next one. -/
theorem Backend.among_attempt_contended (hother : others s s') (hview : b.view w s' ≠ b.view w s) :
    Among (fun s c r s' => b.execCall s c = (r, s')) others s
      (attempt w .done body contention (tries + 1) lost : TxProgram W V Cmd R (Except E α))
      [⟨.watch w, b.view w s⟩, ⟨.commit w (b.view w s) commands, false⟩] s'
      (attempt w .done body contention tries (some a)) :=
  ((b.among_attempt_watch contention hbody).other hother).call (if_neg hview)

end Rounds

/-- Without interference the first round of a transaction decides. What it has read, where it commits,
are the watched keys. -/
theorem Backend.alone_attempt {w : W} {read : V → TxProgram W V Cmd R V}
    {body : Option α → Nat → V → Except E (α × List Cmd)} {contention : E} {tries : Nat}
    {lost : Option α} {s : S} {image : V} (hread : b.alone (read (b.view w s)) s = (image, s))
    (hsame : ∀ a commands, body lost tries image = .ok (a, commands) → b.view w s = image) :
    b.alone (attempt w read body contention (tries + 1) lost) s =
      match body lost tries image with
      | .error err => (.error err, s)
      | .ok (a, commands) => (.ok a, b.applyAll s commands) := by
  have hwatch : b.alone (attempt w read body contention (tries + 1) lost) s =
      b.alone ((read (b.view w s)).bind fun image => match body lost tries image with
        | .error err => .done (.error err)
        | .ok (a, commands) => .call (.commit w image commands) fun ok =>
            if ok then .done (.ok a) else attempt w read body contention tries (some a)) s := rfl
  rw [hwatch, b.alone_bind, hread]
  cases hbody : body lost tries image with
  | error err => rfl
  | ok decision =>
      obtain ⟨a, commands⟩ := decision
      simp [Backend.alone, Backend.execCall, hsame a commands hbody]

/-- Concrete runs, with a decision for which calls they may take. -/
def Backend.execution {allowed : S → TxCall W V Cmd Other → Prop}
    (ready : S → TxCall W V Cmd Other → Bool) (h : ∀ s c, ready s c = true → allowed s c) :
    Execution (b.system allowed) where
  exec := b.execCall
  ready := fun s _ c => ready s c
  allowed := fun s _ c hready => h s c hready
  step := fun s _ c _ => b.step_execCall s c

end Alone

/-! ## More reads -/

section Reads

variable {D : Type} {RD : D → Type}

/-- The store with further calls, which only read. -/
def Backend.withReads (b : Backend S W V Cmd Other R) (read : S → (d : D) → RD d) :
    Backend S W V Cmd (Other ⊕ D) (Sum.elim R RD) where
  view := b.view
  apply := b.apply
  exec := fun s c =>
    match c with
    | .inl c => b.exec s c
    | .inr d => (read s d, s)

/-- A client of the store among clients that use the further calls. -/
def lift : TxProgram W V Cmd R α → TxProgram W V Cmd (Sum.elim R RD) α
  | .done a => .done a
  | .call (.other c) next => .call (.other (.inl c)) fun r => lift (next r)
  | .call (.watch w) next => .call (.watch w) fun r => lift (next r)
  | .call (.commit w image commands) next => .call (.commit w image commands) fun r => lift (next r)

/-- The restriction of the runs, where reads are not restricted. -/
def liftAllowed (allowed : S → TxCall W V Cmd Other → Prop) (s : S) :
    TxCall W V Cmd (Other ⊕ D) → Prop
  | .other (.inl c) => allowed s (.other c)
  | .other (.inr _) => True
  | .watch w => allowed s (.watch w)
  | .commit w image commands => allowed s (.commit w image commands)

/-- A safe client stays safe. -/
theorem safe_lift {b : Backend S W V Cmd Other R} {read : S → (d : D) → RD d}
    {allowed : S → TxCall W V Cmd Other → Prop} {I : S → Prop} {Rel Gu : S → S → Prop}
    {Q : α → Unit → S → Prop} {p : TxProgram W V Cmd R α} {s : S}
    (h : Safe (b.system allowed) I Rel Gu Q p () s) :
    Safe ((b.withReads read).system (liftAllowed allowed)) I Rel Gu Q (lift p) () s := by
  induction p generalizing s with
  | done a => exact h
  | call c next ih =>
      cases c with
      | other c =>
          intro s' hrel hI ha r s'' hs
          obtain ⟨hI', hGu, hnext⟩ := h s' hrel hI ha r s'' hs
          exact ⟨hI', hGu, ih r hnext⟩
      | watch w =>
          intro s' hrel hI ha r s'' hs
          obtain ⟨hI', hGu, hnext⟩ := h s' hrel hI ha r s'' hs
          exact ⟨hI', hGu, ih r hnext⟩
      | commit w image commands =>
          intro s' hrel hI ha r s'' hs
          obtain ⟨hI', hGu, hnext⟩ := h s' hrel hI ha r s'' hs
          exact ⟨hI', hGu, ih r hnext⟩

end Reads

end Ody.Library.Optimistic
