import Mathlib.Data.List.Perm.Basic
import Ody.Library.Optimistic

/-!
# Linearizable programs

A program is linearizable against an abstract object if in every interleaving it
takes effect in one step, and that step is the last it takes: all steps before
leave the abstract object as it is. `Linear` says so for a program in progress
and asks for it under interference, as `Safe` does. A run of linearizable programs
has a history: the answers of the programs that have returned, in an order that is
legal for the abstract object. The history of a later configuration extends it, so
that a program that returned before another one started comes first.

An answer may say that the program gave up without effect; it is not part of the
history.
-/

namespace Ody.Library.Interleaving

variable {S G Call M β : Type} {Reply : Call → Type}

/-- The value that a program has returned. -/
def Program.returned : Program Call Reply β → Option β
  | .done b => some b
  | .call _ _ => none

/-- The answers of the programs that have returned and did not give up. -/
def answers (quiet : β → Bool) (threads : List (Thread G Call Reply β)) : List β :=
  (threads.filterMap (·.program.returned)).filter fun b => !quiet b

/-- The histories that are legal for an abstract object, with the object they lead to. -/
inductive Legal (Initial : M → Prop) (Spec : β → M → M → Prop) : List β → M → Prop
  | start {m} (h : Initial m) : Legal Initial Spec [] m
  | answer {history m b m'} (past : Legal Initial Spec history m) (h : Spec b m m') :
      Legal Initial Spec (history ++ [b]) m'

/-- What the answers of a legal history spend was earned by answers before. -/
theorem Legal.countP_le {Initial : M → Prop} {Spec : β → M → M → Prop} {spends earns : β → Bool}
    (credit : M → Nat) (hstart : ∀ m, Initial m → credit m = 0)
    (hstep : ∀ b m m', Spec b m m' →
      credit m' + (if spends b then 1 else 0) ≤ credit m + if earns b then 1 else 0)
    {history : List β} {m : M} (h : Legal Initial Spec history m) :
    credit m + history.countP spends ≤ history.countP earns := by
  induction h with
  | start h => simp [hstart _ h]
  | answer past h ih =>
      have hone := hstep _ _ _ h
      rw [List.countP_append, List.countP_append, List.countP_singleton, List.countP_singleton]
      omega

section Linear

variable (sys : System S G Call Reply) (I : S → Prop) (R : S → S → Prop) (Abs : S → M → Prop)
  (Spec : β → M → M → Prop) (quiet : β → Bool)

/-- The abstract object answers when the state changes. -/
def Effect (b : β) (s s' : S) : Prop :=
  quiet b = false ∧ ∀ m, Abs s m → ∃ m', Spec b m m' ∧ Abs s' m'

/-- Each call of the program, taken after interference `R`, leaves the abstract object as it is, or
is the effect of the program and its last call. -/
def Linear : Program Call Reply β → G → S → Prop
  | .done b, _, _ => quiet b = true
  | .call c next, g, s => ∀ s', R s s' → I s' → sys.allowed s' g c → ∀ r s'', sys.step s' c r s'' →
      ((∀ m, Abs s' m → Abs s'' m) ∧ Linear (next r) (sys.observe s' c g) s'') ∨
        ∃ b, next r = .done b ∧ Effect Abs Spec quiet b s' s''

/-- The program is linearizable, or it has returned and its effect leaves the state as it is. -/
def Settles (p : Program Call Reply β) (g : G) (s : S) : Prop :=
  Linear sys I R Abs Spec quiet p g s ∨ ∃ b, p = .done b ∧ Effect Abs Spec quiet b s s

/-- The history explains a configuration. -/
structure Explains (Initial : M → Prop) (s : S) (threads : List (Thread G Call Reply β))
    (history : List β) : Prop where
  legal : ∃ m, Legal Initial Spec history m ∧ Abs s m
  returned : history.Perm (answers quiet threads)

variable {sys I R Abs Spec quiet}

theorem Linear.stable (htrans : ∀ a b c, I a → I b → I c → R a b → R b c → R a c)
    {p : Program Call Reply β} {g : G} {s s' : S} (hI : I s) (hI' : I s') (hR : R s s')
    (h : Linear sys I R Abs Spec quiet p g s) : Linear sys I R Abs Spec quiet p g s' := by
  cases p with
  | done b => exact h
  | call c next =>
      intro s'' hR' hI''
      exact h s'' (htrans s s' s'' hI hI' hI'' hR hR') hI''

/-- What is linearizable against one object is so against another, if steps and effects of the one
are steps and effects of the other. -/
theorem Linear.translate {M' β' : Type} {Abs' : S → M' → Prop} {Spec' : β' → M' → M' → Prop}
    {quiet' : β' → Bool} {Gu : S → S → Prop} {Q : β → G → S → Prop} (f : β → β')
    (hquiet : ∀ b, quiet b = true → quiet' (f b) = true)
    (hsilent : ∀ s s', I s → I s' → Gu s s' → (∀ m, Abs s m → Abs s' m) → ∀ m, Abs' s m → Abs' s' m)
    (heffect : ∀ b s s', I s → I s' → Gu s s' → Effect Abs Spec quiet b s s' →
      Effect Abs' Spec' quiet' (f b) s s')
    {p : Program Call Reply β} {g : G} {s : S} (hsafe : Safe sys I R Gu Q p g s)
    (h : Linear sys I R Abs Spec quiet p g s) :
    Linear sys I R Abs' Spec' quiet' (p.map f) g s := by
  induction p generalizing g s with
  | done b => exact hquiet b h
  | call c next ih =>
      intro s' hR hI ha r s'' hs
      obtain ⟨hI', hGu, hnext⟩ := hsafe s' hR hI ha r s'' hs
      rcases h s' hR hI ha r s'' hs with ⟨hsame, hlater⟩ | ⟨b, hdone, hb⟩
      · exact Or.inl ⟨hsilent s' s'' hI hI' hGu hsame, ih r hnext hlater⟩
      · refine Or.inr ⟨f b, ?_, heffect b s' s'' hI hI' hGu hb⟩
        exact congrArg (Program.map f) hdone

/-- A program that starts with reads, and then is linearizable or has taken effect. -/
theorem Settles.read {α : Type} {Gu : S → S → Prop} {Q : α → G → S → Prop}
    {p : Program Call Reply α} {f : α → Program Call Reply β} {g : G} {s : S}
    (hread : ∀ s s', Gu s s' → s = s') (h : Safe sys I R Gu Q p g s) (hI : I s)
    (hf : ∀ a g s, I s → Q a g s → Settles sys I R Abs Spec quiet (f a) g s) :
    Settles sys I R Abs Spec quiet (p.bind f) g s := by
  induction p generalizing g s with
  | done a => exact hf a g s hI h
  | call c next ih =>
      left
      intro s' hR hI' ha r s'' hs
      obtain ⟨hI'', hGu, hnext⟩ := h s' hR hI' ha r s'' hs
      obtain rfl := hread s' s'' hGu
      rcases ih r hnext hI'' with hlater | heffect
      · exact Or.inl ⟨fun _ h => h, hlater⟩
      · exact Or.inr heffect

/-- A program that is linearizable and has returned gave up. -/
theorem Linear.answer {p : Program Call Reply β} {g : G} {s : S}
    (h : Linear sys I R Abs Spec quiet p g s) :
    (p.returned.toList.filter fun b => !quiet b) = [] := by
  cases p with
  | done b =>
      have hquiet : quiet b = true := h
      simp [Program.returned, hquiet]
  | call c next => rfl

/-- Replacing a program that has not returned adds its answer, if there is one. -/
theorem answers_replace (quiet : β → Bool) (pre post : List (Thread G Call Reply β))
    (t t' : Thread G Call Reply β) (ht : t.program.returned = none) :
    (answers quiet (pre ++ t' :: post)).Perm
      (answers quiet (pre ++ t :: post) ++ t'.program.returned.toList.filter fun b => !quiet b) := by
  have hbefore : answers quiet (pre ++ t :: post) = answers quiet pre ++ answers quiet post := by
    simp [answers, ht]
  have hafter : answers quiet (pre ++ t' :: post) = answers quiet pre ++
      (t'.program.returned.toList.filter (fun b => !quiet b) ++ answers quiet post) := by
    cases hreturned : t'.program.returned with
    | none => simp [answers, hreturned]
    | some b => by_cases hquiet : quiet b = true <;> simp [answers, hreturned, hquiet]
  rw [hbefore, hafter, List.append_assoc]
  exact List.perm_append_comm.append_left _

/-- Answers that are not of programs that gave up are counted in the history. -/
theorem Explains.countP_eq {Initial : M → Prop} {s : S} {threads : List (Thread G Call Reply β)}
    {history : List β} (h : Explains Abs Spec quiet Initial s threads history) {p : β → Bool}
    (hloud : ∀ b, p b = true → quiet b = false) :
    history.countP p = (threads.filterMap (·.program.returned)).countP p := by
  rw [h.returned.countP_eq, answers, List.countP_filter]
  apply List.countP_congr
  intro b _
  by_cases hb : p b = true
  · simp [hb, hloud b hb]
  · simp [hb]

section Runs

variable {initial : S → Prop} {Initial : M → Prop} {Spawn : Program Call Reply β → Prop}
  (hrefl : ∀ s, R s s) (htrans : ∀ a b c, I a → I b → I c → R a b → R b c → R a c)
  (hsafe : ∀ p, Spawn p → Triple sys I R R (fun _ s => I s) p fun _ _ _ => True)
  (hlinear : ∀ p, Spawn p → ∀ s, I s → Linear sys I R Abs Spec quiet p sys.start s)
  (hinit : ∀ s, initial s → I s)

include hrefl htrans hsafe hlinear hinit

/-- In every interleaving a program has returned or is still linearizable. -/
theorem Reach.linear {s : S} {threads : List (Thread G Call Reply β)}
    (run : Reach sys initial Spawn s threads) : ∀ t ∈ threads, t.program.returned ≠ none ∨
      Linear sys I R Abs Spec quiet t.program t.ghost s := by
  induction run with
  | start _ => simp
  | @spawn s threads p run h ih =>
      intro t ht
      rcases List.mem_append.mp ht with hmem | hnew
      · exact ih t hmem
      · rw [List.mem_singleton.mp hnew]
        have hI := (run.safe hrefl htrans (fun _ _ h => h) hinit hsafe).1
        exact Or.inr (hlinear p h s hI)
  | @step s g c next pre post r s' run ha h ih =>
      obtain ⟨hI, hthreads⟩ := run.safe hrefl htrans (fun _ _ h => h) hinit hsafe
      obtain ⟨hI', hR, -⟩ := hthreads ⟨g, .call c next⟩ (by simp) s (hrefl s) hI ha r s' h
      have hother : ∀ u ∈ pre ++ post, u.program.returned ≠ none ∨
          Linear sys I R Abs Spec quiet u.program u.ghost s' := by
        intro u hu
        have hmem : u ∈ pre ++ ⟨g, .call c next⟩ :: post := by
          simp only [List.mem_append, List.mem_cons] at hu ⊢
          tauto
        exact (ih u hmem).imp id (Linear.stable htrans hI hI' hR)
      intro t ht
      rcases List.mem_append.mp ht with hp | hp
      · exact hother t (List.mem_append_left _ hp)
      · rcases List.mem_cons.mp hp with rfl | hp
        · have hself := (ih ⟨g, .call c next⟩ (by simp)).resolve_left (by simp [Program.returned])
          rcases hself s (hrefl s) hI ha r s' h with ⟨-, hnext⟩ | ⟨b, hdone, -⟩
          · exact Or.inr hnext
          · exact Or.inl (by simp [hdone, Program.returned])
        · exact hother t (List.mem_append_right _ hp)

/-- One more move of a run of linearizable programs extends its history. -/
theorem Explains.next {s s' : S} {threads threads' : List (Thread G Call Reply β)}
    {history : List β} (run : Reach sys initial Spawn s threads)
    (h : Explains Abs Spec quiet Initial s threads history)
    (hnext : Next sys Spawn (s, threads) (s', threads')) :
    ∃ more, Explains Abs Spec quiet Initial s' threads' (history ++ more) := by
  have hprogress := run.linear hrefl htrans hsafe hlinear hinit
  have hI := (run.safe hrefl htrans (fun _ _ h => h) hinit hsafe).1
  obtain ⟨⟨m, hlegal, habs⟩, hreturned⟩ := h
  cases hnext with
  | @spawn _ _ p hp =>
      refine ⟨[], ⟨m, by rwa [List.append_nil], habs⟩, ?_⟩
      have hanswer := (hlinear p hp s hI).answer
      have hsame : answers quiet (threads ++ [⟨sys.start, p⟩]) = answers quiet threads := by
        cases hp' : p.returned with
        | none => simp [answers, hp']
        | some b =>
            rw [hp'] at hanswer
            simpa [answers, hp'] using hanswer
      rw [List.append_nil, hsame]
      exact hreturned
  | @step _ g c next pre post r _ ha hstep =>
      have hself := (hprogress ⟨g, .call c next⟩ (by simp)).resolve_left (by simp [Program.returned])
      have hreplace := answers_replace quiet pre post ⟨g, .call c next⟩ ⟨sys.observe s c g, next r⟩ rfl
      rcases hself s (hrefl s) hI ha r s' hstep with ⟨hsame, hlater⟩ | ⟨b, hdone, hquiet, heffect⟩
      · refine ⟨[], ⟨m, by rwa [List.append_nil], hsame m habs⟩, ?_⟩
        rw [hlater.answer, List.append_nil] at hreplace
        rw [List.append_nil]
        exact hreturned.trans hreplace.symm
      · obtain ⟨m', hspec, habs'⟩ := heffect m habs
        refine ⟨[b], ⟨m', hlegal.answer hspec, habs'⟩, ?_⟩
        have hanswer : ((next r).returned.toList.filter fun b => !quiet b) = [b] := by
          simp [hdone, Program.returned, hquiet]
        rw [hanswer] at hreplace
        exact (hreturned.append_right [b]).trans hreplace.symm

/-- Linearizable programs have a history for each configuration of a run. -/
theorem Reach.explains (hstart : ∀ s, initial s → ∃ m, Initial m ∧ Abs s m) {s : S}
    {threads : List (Thread G Call Reply β)} (run : Reach sys initial Spawn s threads) :
    ∃ history, Explains Abs Spec quiet Initial s threads history := by
  induction run with
  | start h =>
      obtain ⟨m, hm, habs⟩ := hstart _ h
      exact ⟨[], ⟨m, Legal.start hm, habs⟩, List.Perm.refl _⟩
  | spawn run h ih =>
      obtain ⟨history, hhistory⟩ := ih
      obtain ⟨more, hmore⟩ :=
        hhistory.next hrefl htrans hsafe hlinear hinit run (Next.spawn h)
      exact ⟨history ++ more, hmore⟩
  | step run ha h ih =>
      obtain ⟨history, hhistory⟩ := ih
      obtain ⟨more, hmore⟩ :=
        hhistory.next hrefl htrans hsafe hlinear hinit run (Next.step ha h)
      exact ⟨history ++ more, hmore⟩

/-- The history of a later configuration extends that of an earlier one. -/
theorem Explains.later {a b : S × List (Thread G Call Reply β)} {history : List β}
    (run : Reach sys initial Spawn a.1 a.2) (h : Explains Abs Spec quiet Initial a.1 a.2 history)
    (later : Later sys Spawn a b) :
    ∃ more, Explains Abs Spec quiet Initial b.1 b.2 (history ++ more) := by
  suffices hall : Reach sys initial Spawn b.1 b.2 ∧
      ∃ more, Explains Abs Spec quiet Initial b.1 b.2 (history ++ more) from hall.2
  induction later with
  | refl => exact ⟨run, [], by rwa [List.append_nil]⟩
  | tail _ hnext ih =>
      obtain ⟨reached, more, hmore⟩ := ih
      obtain ⟨last, hlast⟩ := hmore.next hrefl htrans hsafe hlinear hinit reached hnext
      exact ⟨reached.next hnext, more ++ last, by rwa [← List.append_assoc]⟩

end Runs

end Linear

end Ody.Library.Interleaving

namespace Ody.Library.Optimistic

open Interleaving

variable {S W V Cmd Other E M α β : Type} {R : Other → Type} {b : Backend S W V Cmd Other R}
  {allowed : S → TxCall W V Cmd Other → Prop} {I : S → Prop} {Rel : S → S → Prop}
  {Abs : S → M → Prop} {Spec : β → M → M → Prop} {quiet : β → Bool}

/-- A call outside of transactions that takes effect and ends the program. -/
theorem linear_other {c : Other} {next : R c → TxProgram W V Cmd R β} {s : S}
    (h : ∀ s', Rel s s' → I s' → allowed s' (.other c) → ∃ answer,
      next (b.exec s' c).1 = .done answer ∧
        Effect Abs Spec quiet answer s' (b.exec s' c).2) :
    Linear (b.system allowed) I Rel Abs Spec quiet (.call (.other c) next) () s := by
  intro s' hrel hI hallowed r s'' hstep
  have hexec : b.exec s' c = (r, s'') := hstep
  have hspec := h s' hrel hI hallowed
  rw [hexec] at hspec
  exact Or.inr hspec

/-- A transaction takes effect when it commits, or when its body fails on what it has read. `P` is
what is known after a lost round, and `K` what a round knows of what it has read. -/
theorem linear_attempt {w : W} {read : V → TxProgram W V Cmd R V}
    {body : Option α → Nat → V → Except E (α × List Cmd)} {contention : E}
    {f : Except E α → TxProgram W V Cmd R β} {P : Option α → S → Prop} {K : V → S → Prop}
    (hstable : ∀ lost s s', P lost s → Rel s s' → I s' → P lost s')
    (hread : ∀ lost s, I s → P lost s → Safe (b.system allowed) I Rel Eq
      (fun image _ s => P lost s ∧ K image s) (read (b.view w s)) () s)
    (hlost : ∀ lost n s image a commands, I s → P lost s → K image s →
      body lost n image = .ok (a, commands) → P (some a) s)
    (hcommit : ∀ lost n s a commands, I s → P lost s → body lost n (b.view w s) = .ok (a, commands) →
      allowed s (.commit w (b.view w s) commands) → ∃ answer, f (.ok a) = .done answer ∧
        Effect Abs Spec quiet answer s (b.applyAll s commands))
    (herror : ∀ lost n s image err, I s → K image s → body lost n image = .error err →
      Settles (b.system allowed) I Rel Abs Spec quiet (f (.error err)) () s)
    (hcontention : ∃ answer, f (.error contention) = .done answer ∧ quiet answer = true)
    (tries : Nat) (lost : Option α) (s : S) (hP : P lost s) :
    Linear (b.system allowed) I Rel Abs Spec quiet
      ((attempt w read body contention tries lost).bind f) () s := by
  induction tries generalizing lost s with
  | zero =>
      obtain ⟨answer, hdone, hquiet⟩ := hcontention
      have hprogram : (attempt w read body contention 0 lost).bind f = f (.error contention) := rfl
      rw [hprogram, hdone]
      exact hquiet
  | succ tries ih =>
      rintro s₁ hrel₁ hI₁ - seen s₁' ⟨rfl, rfl⟩
      have hP₁ := hstable lost s s₁ hP hrel₁ hI₁
      refine Or.imp_left (fun hlater => ⟨fun _ h => h, hlater⟩)
        (?_ : Settles (b.system allowed) I Rel Abs Spec quiet _ () s₁)
      dsimp only
      rw [Program.bind_assoc]
      refine Settles.read (fun _ _ h => h) (hread lost s₁ hI₁ hP₁) hI₁ ?_
      rintro image ⟨⟩ s₂ hI₂ ⟨hP₂, hK⟩
      cases hbody : body lost tries image with
      | error err => exact herror lost tries s₂ image err hI₂ hK hbody
      | ok decision =>
          obtain ⟨a, commands⟩ := decision
          have hP₂' := hlost lost tries s₂ image a commands hI₂ hP₂ hK hbody
          left
          rintro s₃ hrel₃ hI₃ hallowed ok s₃' (⟨rfl, hview, rfl⟩ | ⟨rfl, rfl⟩)
          · rw [← hview] at hbody hallowed
            exact Or.inr (hcommit lost tries s₃ a commands hI₃ (hstable lost s₂ s₃ hP₂ hrel₃ hI₃)
              hbody hallowed)
          · exact Or.inl ⟨fun _ h => h, ih (some a) s₃ (hstable _ s₂ s₃ hP₂' hrel₃ hI₃)⟩

/-- A transaction that decides on the watched keys alone. -/
theorem linear_attempt_seen {w : W} {body : Nat → V → Except E (α × List Cmd)} {contention : E}
    {f : Except E α → TxProgram W V Cmd R β}
    (hcommit : ∀ n s a commands, I s → body n (b.view w s) = .ok (a, commands) →
      allowed s (.commit w (b.view w s) commands) → ∃ answer, f (.ok a) = .done answer ∧
        Effect Abs Spec quiet answer s (b.applyAll s commands))
    (herror : ∀ n s err, I s → body n (b.view w s) = .error err →
      Settles (b.system allowed) I Rel Abs Spec quiet (f (.error err)) () s)
    (hcontention : ∃ answer, f (.error contention) = .done answer ∧ quiet answer = true)
    (tries : Nat) (lost : Option α) (s : S) :
    Linear (b.system allowed) I Rel Abs Spec quiet
      ((attempt w .done (fun _ => body) contention tries lost).bind f) () s := by
  apply linear_attempt (P := fun _ _ => True) (K := fun image s => b.view w s = image)
  · exact fun _ _ _ _ _ _ => trivial
  · exact fun _ _ _ _ => ⟨trivial, rfl⟩
  · exact fun _ _ _ _ _ _ _ _ _ _ => trivial
  · exact fun _ n s a commands hI _ => hcommit n s a commands hI
  · rintro _ n s _ err hI rfl hbody
    exact herror n s err hI hbody
  · exact hcontention
  · trivial

end Ody.Library.Optimistic
