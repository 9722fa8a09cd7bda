import Mathlib.Logic.Relation

/-!
# Programs over atomic calls and their interleavings

A program issues one atomic call after the other and decides from the replies
how to go on. Any number of programs run against one shared state, and each
step executes the next call of one of them. `Reach` collects the
configurations of every such interleaving, and `Sequence` those of the runs in
which a program starts only after the previous one has returned. `Later` relates
two configurations of one interleaving, and `Runs` the states before and after a
program that runs alone.

Each thread carries a ghost value of type `G`. It records what the thread has
observed and is never read by a program; `System.allowed` may restrict the
steps of a run by it.

The proof rules are those of rely and guarantee: a program is `Safe` at a state
when each of its calls, taken after arbitrary interference by the others, keeps
the invariant and is itself interference the others tolerate.
-/

namespace Ody.Library.Interleaving

/-- A program that issues calls of type `Call` and returns a value of type `α`. -/
inductive Program (Call : Type) (Reply : Call → Type) (α : Type) where
  | done (a : α)
  | call (c : Call) (next : Reply c → Program Call Reply α)

namespace Program

variable {Call : Type} {Reply : Call → Type} {α β : Type}

/-- Run one program and go on with its result. -/
def bind : Program Call Reply α → (α → Program Call Reply β) → Program Call Reply β
  | done a, f => f a
  | call c next, f => call c fun r => (next r).bind f

theorem bind_assoc {γ : Type} (p : Program Call Reply α) (f : α → Program Call Reply β)
    (g : β → Program Call Reply γ) : (p.bind f).bind g = p.bind fun a => (f a).bind g := by
  induction p with
  | done a => rfl
  | call c next ih => exact congrArg (call c) (funext ih)

/-- Run a program for its calls only. -/
def discard (p : Program Call Reply α) : Program Call Reply Unit := p.bind fun _ => done ()

/-- Run a program and transform its result. -/
def map (f : α → β) (p : Program Call Reply α) : Program Call Reply β := p.bind fun a => done (f a)

/-- What the program has returned. -/
def result? : Program Call Reply α → Option α
  | done a => some a
  | call _ _ => none

theorem eq_done_of_result? {p : Program Call Reply α} {a : α} (h : p.result? = some a) :
    p = done a := by
  cases p with
  | done b => exact congrArg done (Option.some.inj h)
  | call c next => cases h

/-- The program of a single call. -/
def single (c : Call) : Program Call Reply Unit := call c fun _ => done ()

/-- Every call that the program can issue is of this kind. -/
def Issues (ok : Call → Prop) : Program Call Reply α → Prop
  | done _ => True
  | call c next => ok c ∧ ∀ r, (next r).Issues ok

theorem Issues.bind {ok : Call → Prop} {p : Program Call Reply α}
    {f : α → Program Call Reply β} (h : p.Issues ok) (hf : ∀ a, (f a).Issues ok) :
    (p.bind f).Issues ok := by
  induction p with
  | done a => exact hf a
  | call c next ih => exact ⟨h.1, fun r => ih r (h.2 r)⟩

end Program

/-- The atomic steps of a shared state, and which of them a run may take. -/
structure System (S G Call : Type) (Reply : Call → Type) where
  step : S → (c : Call) → Reply c → S → Prop
  start : G
  observe : S → Call → G → G
  allowed : S → G → Call → Prop

/-- A program in progress with the ghost value of its thread. -/
structure Thread (G Call : Type) (Reply : Call → Type) (α : Type) where
  ghost : G
  program : Program Call Reply α

variable {S G Call α β : Type} {Reply : Call → Type}

/-- Configurations of the interleavings of spawned programs. -/
inductive Reach (sys : System S G Call Reply) (initial : S → Prop)
    (Spawn : Program Call Reply α → Prop) : S → List (Thread G Call Reply α) → Prop
  | start {s} (h : initial s) : Reach sys initial Spawn s []
  | spawn {s threads p} (run : Reach sys initial Spawn s threads) (h : Spawn p) :
      Reach sys initial Spawn s (threads ++ [⟨sys.start, p⟩])
  | step {s g c next pre post r s'}
      (run : Reach sys initial Spawn s (pre ++ ⟨g, .call c next⟩ :: post))
      (ha : sys.allowed s g c) (h : sys.step s c r s') :
      Reach sys initial Spawn s' (pre ++ ⟨sys.observe s c g, next r⟩ :: post)

/-- Configurations of the runs that execute one spawned program after the other. -/
inductive Sequence (sys : System S G Call Reply) (initial : S → Prop)
    (Spawn : Program Call Reply α → Prop) : S → G → Program Call Reply α → Prop
  | start {s} (h : initial s) (a : α) : Sequence sys initial Spawn s sys.start (.done a)
  | spawn {s g a p} (run : Sequence sys initial Spawn s g (.done a)) (h : Spawn p) :
      Sequence sys initial Spawn s sys.start p
  | step {s g c next r s'} (run : Sequence sys initial Spawn s g (.call c next))
      (ha : sys.allowed s g c) (h : sys.step s c r s') :
      Sequence sys initial Spawn s' (sys.observe s c g) (next r)

/-! ## Rely and guarantee -/

section Rules

variable (sys : System S G Call Reply) (I : S → Prop) (R Gu : S → S → Prop)

/-- Every call of the program, taken after interference `R`, keeps `I` and
guarantees `Gu`; a returned value satisfies `Q`. -/
def Safe (Q : α → G → S → Prop) : Program Call Reply α → G → S → Prop
  | .done a, g, s => Q a g s
  | .call c next, g, s => ∀ s', R s s' → I s' → sys.allowed s' g c →
      ∀ r s'', sys.step s' c r s'' →
        I s'' ∧ Gu s' s'' ∧ Safe Q (next r) (sys.observe s' c g) s''

/-- Sequential composition: the second program starts from what the first establishes. -/
theorem Safe.bind {Q : α → G → S → Prop} {Q' : β → G → S → Prop}
    {p : Program Call Reply α} {f : α → Program Call Reply β} {g : G} {s : S}
    (h : Safe sys I R Gu Q p g s)
    (hf : ∀ a g s, Q a g s → Safe sys I R Gu Q' (f a) g s) :
    Safe sys I R Gu Q' (p.bind f) g s := by
  induction p generalizing g s with
  | done a => exact hf a g s h
  | call c next ih =>
      intro s' hR hI ha r s'' hs
      obtain ⟨hI', hG, hnext⟩ := h s' hR hI ha r s'' hs
      exact ⟨hI', hG, ih r hnext⟩

/-- A program started where `P` holds is safe and returns a value that satisfies `Q`. -/
def Triple (P : G → S → Prop) (p : Program Call Reply α) (Q : α → G → S → Prop) : Prop :=
  ∀ g s, P g s → Safe sys I R Gu Q p g s

/-- One call issued where `P` holds, after interference, keeps `I`, guarantees `Gu` and
returns a reply that satisfies `Q`. -/
def CallTriple (P : G → S → Prop) (c : Call) (Q : Reply c → G → S → Prop) : Prop :=
  ∀ g s, P g s → ∀ s', R s s' → I s' → sys.allowed s' g c → ∀ r s'', sys.step s' c r s'' →
    I s'' ∧ Gu s' s'' ∧ Q r (sys.observe s' c g) s''

variable {sys I R Gu} {P : G → S → Prop} {Q : α → G → S → Prop}

theorem Triple.done {a : α} (h : ∀ g s, P g s → Q a g s) :
    Triple sys I R Gu P (.done a) Q := h

theorem Triple.call {c : Call} {next : Reply c → Program Call Reply α}
    {M : Reply c → G → S → Prop} (h : CallTriple sys I R Gu P c M)
    (hnext : ∀ r, Triple sys I R Gu (M r) (next r) Q) :
    Triple sys I R Gu P (.call c next) Q := by
  intro g s hP s' hR hI ha r s'' hs
  obtain ⟨hI', hG, hM⟩ := h g s hP s' hR hI ha r s'' hs
  exact ⟨hI', hG, hnext r _ s'' hM⟩

theorem Triple.bind {p : Program Call Reply α} {f : α → Program Call Reply β}
    {Q' : β → G → S → Prop} (h : Triple sys I R Gu P p Q)
    (hf : ∀ a, Triple sys I R Gu (Q a) (f a) Q') : Triple sys I R Gu P (p.bind f) Q' := by
  intro g s hP
  exact Safe.bind sys I R Gu (h g s hP) hf

theorem Triple.map {p : Program Call Reply α} {f : α → β} {Q' : β → G → S → Prop}
    (h : Triple sys I R Gu P p fun a => Q' (f a)) : Triple sys I R Gu P (p.map f) Q' :=
  h.bind fun _ => Triple.done fun _ _ h => h

theorem Triple.discard {p : Program Call Reply α} (h : Triple sys I R Gu P p Q) :
    Triple sys I R Gu P p.discard (fun _ _ _ => True) :=
  h.bind fun _ => Triple.done fun _ _ _ => trivial

/-- Weaken the precondition of a program. -/
theorem Triple.of {P' : G → S → Prop} {p : Program Call Reply α} (h : Triple sys I R Gu P p Q)
    (hP : ∀ g s, P' g s → P g s) : Triple sys I R Gu P' p Q :=
  fun g s hs => h g s (hP g s hs)

theorem Safe.weaken {Q' : α → G → S → Prop} {p : Program Call Reply α} {g : G} {s : S}
    (h : Safe sys I R Gu Q p g s) (hQ : ∀ a g s, Q a g s → Q' a g s) :
    Safe sys I R Gu Q' p g s := by
  induction p generalizing g s with
  | done a => exact hQ a g s h
  | call c next ih =>
      intro s' hR hI ha r s'' hs
      obtain ⟨hI', hG, hnext⟩ := h s' hR hI ha r s'' hs
      exact ⟨hI', hG, ih r hnext⟩

/-- Weaken the postcondition of a program. -/
theorem Triple.weaken {Q' : α → G → S → Prop} {p : Program Call Reply α}
    (h : Triple sys I R Gu P p Q) (hQ : ∀ a g s, Q a g s → Q' a g s) :
    Triple sys I R Gu P p Q' :=
  fun g s hP => (h g s hP).weaken hQ

/-- Weaken the precondition of a call. -/
theorem CallTriple.of {P' : G → S → Prop} {c : Call} {M : Reply c → G → S → Prop}
    (h : CallTriple sys I R Gu P c M) (hP : ∀ g s, P' g s → P g s) :
    CallTriple sys I R Gu P' c M :=
  fun g s hs => h g s (hP g s hs)

/-- Weaken the postcondition of a call. -/
theorem CallTriple.weaken {c : Call} {M M' : Reply c → G → S → Prop}
    (h : CallTriple sys I R Gu P c M) (hM : ∀ r g s, M r g s → M' r g s) :
    CallTriple sys I R Gu P c M' := by
  intro g s hP s' hR hI ha r s'' hs
  obtain ⟨hI', hG, hpost⟩ := h g s hP s' hR hI ha r s'' hs
  exact ⟨hI', hG, hM r _ s'' hpost⟩

/-- Interference keeps a program safe, if it keeps what the program promises. -/
theorem Safe.stable (htrans : ∀ a b c, I a → I b → I c → R a b → R b c → R a c)
    (hstable : ∀ a g s s', I s → I s' → R s s' → Q a g s → Q a g s')
    {p : Program Call Reply α} {g : G} {s s' : S} (hI : I s) (hI' : I s') (hR : R s s')
    (h : Safe sys I R Gu Q p g s) : Safe sys I R Gu Q p g s' := by
  cases p with
  | done a => exact hstable a g s s' hI hI' hR h
  | call c next =>
      intro s'' hR' hI''
      exact h s'' (htrans s s' s'' hI hI' hI'' hR hR') hI''

/-- Programs that are safe when they start keep the invariant in every interleaving. All of them
remain safe, and what the finished ones promised still holds. -/
theorem Reach.promises {initial : S → Prop} {Spawn : Program Call Reply α → Prop}
    (hrefl : ∀ s, R s s)
    (htrans : ∀ a b c, I a → I b → I c → R a b → R b c → R a c)
    (hguar : ∀ a b, Gu a b → R a b)
    (hstable : ∀ a g s s', I s → I s' → R s s' → Q a g s → Q a g s')
    (hinit : ∀ s, initial s → I s)
    (hspawn : ∀ p, Spawn p → Triple sys I R Gu (fun g s => g = sys.start ∧ I s) p Q)
    {s : S} {threads : List (Thread G Call Reply α)}
    (run : Reach sys initial Spawn s threads) :
    I s ∧ ∀ t ∈ threads, Safe sys I R Gu Q t.program t.ghost s := by
  induction run with
  | start h => exact ⟨hinit _ h, by simp⟩
  | spawn _ h ih =>
      refine ⟨ih.1, ?_⟩
      intro t ht
      rcases List.mem_append.mp ht with hmem | hnew
      · exact ih.2 t hmem
      · rw [List.mem_singleton.mp hnew]
        exact hspawn _ h _ _ ⟨rfl, ih.1⟩
  | @step s g c next pre post r s' _ ha h ih =>
      have hself := ih.2 ⟨g, .call c next⟩ (by simp)
      obtain ⟨hI, hG, hnext⟩ := hself s (hrefl s) ih.1 ha r s' h
      refine ⟨hI, ?_⟩
      intro t ht
      have hother : ∀ u ∈ pre ++ post, Safe sys I R Gu Q u.program u.ghost s' := by
        intro u hu
        have hmem : u ∈ pre ++ ⟨g, .call c next⟩ :: post := by
          rcases List.mem_append.mp hu with hp | hp
          · exact List.mem_append_left _ hp
          · exact List.mem_append_right _ (List.mem_cons_of_mem _ hp)
        exact Safe.stable htrans hstable ih.1 hI (hguar _ _ hG) (ih.2 u hmem)
      rcases List.mem_append.mp ht with hp | hp
      · exact hother t (List.mem_append_left _ hp)
      · rcases List.mem_cons.mp hp with rfl | hp
        · exact hnext
        · exact hother t (List.mem_append_right _ hp)

/-- Programs that promise nothing keep the invariant in every interleaving. -/
theorem Reach.safe {initial : S → Prop} {Spawn : Program Call Reply α → Prop}
    (hrefl : ∀ s, R s s)
    (htrans : ∀ a b c, I a → I b → I c → R a b → R b c → R a c)
    (hguar : ∀ a b, Gu a b → R a b)
    (hinit : ∀ s, initial s → I s)
    (hspawn : ∀ p, Spawn p → Triple sys I R Gu (fun _ s => I s) p fun _ _ _ => True)
    {s : S} {threads : List (Thread G Call Reply α)}
    (run : Reach sys initial Spawn s threads) :
    I s ∧ ∀ t ∈ threads, Safe sys I R Gu (fun _ _ _ => True) t.program t.ghost s :=
  run.promises hrefl htrans hguar (fun _ _ _ _ _ _ _ _ => trivial) hinit
    fun p hp => (hspawn p hp).of fun _ _ h => h.2

/-- An invariant that every step keeps, whichever program takes it. -/
theorem Reach.invariant {initial : S → Prop} {Spawn : Program Call Reply α → Prop}
    (hinit : ∀ s, initial s → I s)
    (hstep : ∀ s g c r s', I s → sys.allowed s g c → sys.step s c r s' → I s')
    {s : S} {threads : List (Thread G Call Reply α)}
    (run : Reach sys initial Spawn s threads) : I s := by
  induction run with
  | start h => exact hinit _ h
  | spawn _ _ ih => exact ih
  | step _ ha h ih => exact hstep _ _ _ _ _ ih ha h

/-- Programs that keep the invariant when they run alone keep it along every sequence. -/
theorem Sequence.safe {initial : S → Prop} {Spawn : Program Call Reply α → Prop}
    (hinit : ∀ s, initial s → I s)
    (hspawn : ∀ p, Spawn p →
      Triple sys I Eq (fun _ _ => True) (fun _ s => I s) p fun _ _ _ => True)
    {s : S} {g : G} {p : Program Call Reply α}
    (run : Sequence sys initial Spawn s g p) :
    I s ∧ Safe sys I Eq (fun _ _ => True) (fun _ _ _ => True) p g s := by
  induction run with
  | start h a => exact ⟨hinit _ h, trivial⟩
  | spawn _ h ih => exact ⟨ih.1, hspawn _ h _ _ ih.1⟩
  | @step s g c next r s' _ ha h ih =>
      obtain ⟨hI, -, hnext⟩ := ih.2 s rfl ih.1 ha r s' h
      exact ⟨hI, hnext⟩

end Rules

/-- An invariant that the calls of a kind keep holds wherever only such calls are issued. -/
theorem Reach.of_issues {sys : System S G Call Reply} {I : S → Prop} {initial : S → Prop}
    {Spawn : Program Call Reply α → Prop} {ok : Call → Prop} (hinit : ∀ s, initial s → I s)
    (hspawn : ∀ p, Spawn p → p.Issues ok)
    (hstep : ∀ s g c r s', I s → ok c → sys.allowed s g c → sys.step s c r s' → I s')
    {s : S} {threads : List (Thread G Call Reply α)}
    (run : Reach sys initial Spawn s threads) :
    I s ∧ ∀ t ∈ threads, t.program.Issues ok := by
  induction run with
  | start h => exact ⟨hinit _ h, by simp⟩
  | spawn _ h ih =>
      refine ⟨ih.1, ?_⟩
      intro t ht
      rcases List.mem_append.mp ht with hmem | hnew
      · exact ih.2 t hmem
      · rw [List.mem_singleton.mp hnew]
        exact hspawn _ h
  | @step s g c next pre post r s' _ ha h ih =>
      have hself := ih.2 ⟨g, .call c next⟩ (by simp)
      refine ⟨hstep _ _ _ _ _ ih.1 hself.1 ha h, ?_⟩
      intro t ht
      rcases List.mem_append.mp ht with hp | hp
      · exact ih.2 t (List.mem_append_left _ hp)
      · rcases List.mem_cons.mp hp with rfl | hp
        · exact hself.2 r
        · exact ih.2 t (List.mem_append_right _ (List.mem_cons_of_mem _ hp))

/-- A guarantee of every call that a safe program can issue is a guarantee of the program. -/
theorem Safe.issues {sys : System S G Call Reply} {I : S → Prop} {R R' Gu Gu' : S → S → Prop}
    {Q : α → G → S → Prop} {ok : Call → Prop} (hR : ∀ s s', R' s s' → R s s')
    (hok : ∀ s g c r s', I s → ok c → sys.allowed s g c → sys.step s c r s' → Gu' s s')
    {p : Program Call Reply α} {g : G} {s : S} (h : Safe sys I R Gu Q p g s) (hp : p.Issues ok) :
    Safe sys I R' (fun s s' => Gu s s' ∧ Gu' s s') Q p g s := by
  induction p generalizing g s with
  | done a => exact h
  | call c next ih =>
      intro s' hR' hI ha r s'' hs
      obtain ⟨hI', hGu, hnext⟩ := h s' (hR s s' hR') hI ha r s'' hs
      exact ⟨hI', ⟨hGu, hok s' g c r s'' hI hp.1 ha hs⟩, ih r hnext (hp.2 r)⟩

/-- What the guarantee of safe programs keeps holds in every interleaving. -/
theorem Reach.guaranteed {sys : System S G Call Reply} {I J : S → Prop} {R Gu : S → S → Prop}
    {initial : S → Prop} {Spawn : Program Call Reply α → Prop} (hrefl : ∀ s, R s s)
    (htrans : ∀ a b c, I a → I b → I c → R a b → R b c → R a c)
    (hguar : ∀ a b, Gu a b → R a b) (hinit : ∀ s, initial s → I s ∧ J s)
    (hspawn : ∀ p, Spawn p → Triple sys I R Gu (fun _ s => I s) p fun _ _ _ => True)
    (hkeep : ∀ s s', I s → I s' → Gu s s' → J s → J s')
    {s : S} {threads : List (Thread G Call Reply α)}
    (run : Reach sys initial Spawn s threads) : J s := by
  induction run with
  | start h => exact (hinit _ h).2
  | spawn _ _ ih => exact ih
  | @step s g c next pre post r s' run ha h ih =>
      obtain ⟨hI, hthreads⟩ :=
        run.safe hrefl htrans hguar (fun s hs => (hinit s hs).1) hspawn
      obtain ⟨hI', hGu, -⟩ := hthreads ⟨g, .call c next⟩ (by simp) s (hrefl s) hI ha r s' h
      exact hkeep s s' hI hI' hGu ih

/-! ## Later configurations -/

/-- One move: a program starts, or a thread executes its next call. -/
inductive Next (sys : System S G Call Reply) (Spawn : Program Call Reply α → Prop) :
    S × List (Thread G Call Reply α) → S × List (Thread G Call Reply α) → Prop
  | spawn {s threads p} (h : Spawn p) : Next sys Spawn (s, threads) (s, threads ++ [⟨sys.start, p⟩])
  | step {s g c next pre post r s'} (ha : sys.allowed s g c) (h : sys.step s c r s') :
      Next sys Spawn (s, pre ++ ⟨g, .call c next⟩ :: post)
        (s', pre ++ ⟨sys.observe s c g, next r⟩ :: post)

/-- The second configuration follows the first after any number of moves. -/
abbrev Later (sys : System S G Call Reply) (Spawn : Program Call Reply α → Prop) :=
  Relation.ReflTransGen (Next sys Spawn)

theorem Reach.next {sys : System S G Call Reply} {initial : S → Prop}
    {Spawn : Program Call Reply α → Prop} {a b : S × List (Thread G Call Reply α)}
    (run : Reach sys initial Spawn a.1 a.2) (h : Next sys Spawn a b) :
    Reach sys initial Spawn b.1 b.2 := by
  cases h with
  | spawn h => exact Reach.spawn run h
  | step ha h => exact Reach.step run ha h

theorem Reach.later {sys : System S G Call Reply} {initial : S → Prop}
    {Spawn : Program Call Reply α → Prop} {s s' : S} {threads threads' : List (Thread G Call Reply α)}
    (run : Reach sys initial Spawn s threads)
    (later : Later sys Spawn (s, threads) (s', threads')) : Reach sys initial Spawn s' threads' := by
  have hclosed : ∀ b, Later sys Spawn (s, threads) b → Reach sys initial Spawn b.1 b.2 := by
    intro b hb
    induction hb with
    | refl => exact run
    | tail _ hnext ih => exact ih.next hnext
  exact hclosed _ later

/-- More programs have more interleavings. -/
theorem Reach.mono {sys : System S G Call Reply} {initial : S → Prop}
    {Spawn Spawn' : Program Call Reply α → Prop} (hspawn : ∀ p, Spawn p → Spawn' p)
    {s : S} {threads : List (Thread G Call Reply α)} (run : Reach sys initial Spawn s threads) :
    Reach sys initial Spawn' s threads := by
  induction run with
  | start h => exact Reach.start h
  | spawn _ h ih => exact Reach.spawn ih (hspawn _ h)
  | step _ ha h ih => exact Reach.step ih ha h

/-- Safe programs keep the rely between any two configurations of a run. -/
theorem Reach.rely {sys : System S G Call Reply} {I : S → Prop} {R Gu : S → S → Prop}
    {Q : α → G → S → Prop} {initial : S → Prop} {Spawn : Program Call Reply α → Prop}
    (hrefl : ∀ s, R s s)
    (htrans : ∀ a b c, I a → I b → I c → R a b → R b c → R a c)
    (hguar : ∀ a b, Gu a b → R a b)
    (hsafe : ∀ s threads, Reach sys initial Spawn s threads →
      I s ∧ ∀ t ∈ threads, Safe sys I R Gu Q t.program t.ghost s)
    {a b : S × List (Thread G Call Reply α)} (run : Reach sys initial Spawn a.1 a.2)
    (later : Later sys Spawn a b) : R a.1 b.1 := by
  suffices h : Reach sys initial Spawn b.1 b.2 ∧ R a.1 b.1 from h.2
  induction later with
  | refl => exact ⟨run, hrefl a.1⟩
  | @tail middle last _ hnext ih =>
      obtain ⟨reached, hR⟩ := ih
      have reached' := reached.next hnext
      refine ⟨reached', ?_⟩
      have hstep : R middle.1 last.1 := by
        cases hnext with
        | spawn _ => exact hrefl _
        | @step s g c next pre post r s' ha h =>
            obtain ⟨hI, hthreads⟩ := hsafe _ _ reached
            have hself := hthreads ⟨g, .call c next⟩ (by simp)
            exact hguar _ _ (hself s (hrefl s) hI ha r s' h).2.1
      exact htrans a.1 middle.1 last.1 (hsafe _ _ run).1 (hsafe _ _ reached).1
        (hsafe _ _ reached').1 hR hstep

/-! ## Uninterrupted runs -/

/-- A program that runs from one state to another while no other program takes a step. -/
inductive Runs (step : S → (c : Call) → Reply c → S → Prop) :
    Program Call Reply α → S → α → S → Prop
  | done {a s} : Runs step (.done a) s a s
  | call {c next r s s' a s''} (h : step s c r s') (rest : Runs step (next r) s' a s'') :
      Runs step (.call c next) s a s''

/-- A program that is safe without interference keeps its promise when it runs alone. -/
theorem Safe.runs {sys : System S G Call Reply} {I : S → Prop} {R Gu : S → S → Prop}
    {Q : α → G → S → Prop} (hrefl : ∀ s, R s s) (hallowed : ∀ s g c, sys.allowed s g c)
    {p : Program Call Reply α} {g : G} {s s' : S} {a : α}
    (h : Safe sys I R Gu Q p g s) (hI : I s) (run : Runs sys.step p s a s') :
    I s' ∧ ∃ g', Q a g' s' := by
  induction run generalizing g with
  | done => exact ⟨hI, g, h⟩
  | @call c next r s middle a s' hstep _ ih =>
      obtain ⟨hI', -, hnext⟩ := h s (hrefl s) hI (hallowed s g c) r middle hstep
      exact ih hnext hI'

/-! ## One program among others -/

/-- The runs of one program while others change the state between its calls: the calls that it has
made with their replies, the state, and what is left of the program. -/
inductive Among (step : S → (c : Call) → Reply c → S → Prop) (others : S → S → Prop) (s₀ : S)
    (p : Program Call Reply α) : List (Σ c, Reply c) → S → Program Call Reply α → Prop
  | start : Among step others s₀ p [] s₀ p
  | other {log s s' q} (run : Among step others s₀ p log s q) (h : others s s') :
      Among step others s₀ p log s' q
  | call {log s c next r s'} (run : Among step others s₀ p log s (.call c next))
      (h : step s c r s') : Among step others s₀ p (log ++ [⟨c, r⟩]) s' (next r)

namespace Among

variable {step step' : S → (c : Call) → Reply c → S → Prop} {others others' : S → S → Prop}
  {s₀ s s' : S} {p q q' : Program Call Reply α} {log log' : List (Σ c, Reply c)}

theorem mono (hstep : ∀ s c r s', step s c r s' → step' s c r s')
    (hothers : ∀ s s', others s s' → others' s s') (run : Among step others s₀ p log s q) :
    Among step' others' s₀ p log s q := by
  induction run with
  | start => exact start
  | other _ h ih => exact ih.other (hothers _ _ h)
  | call _ h ih => exact ih.call (hstep _ _ _ _ h)

/-- A run of the first part of a program is a run of the whole. -/
theorem bind (run : Among step others s₀ p log s q) (f : α → Program Call Reply β) :
    Among step others s₀ (p.bind f) log s (q.bind f) := by
  induction run with
  | start => exact start
  | other _ h ih => exact ih.other h
  | call _ h ih => exact call ih h

/-- Go on with a run of what is left. -/
theorem append (run : Among step others s₀ p log s q) (rest : Among step others s q log' s' q') :
    Among step others s₀ p (log ++ log') s' q' := by
  induction rest with
  | start => rwa [List.append_nil]
  | other _ h ih => exact ih.other h
  | call _ h ih =>
      rw [← List.append_assoc]
      exact ih.call h

end Among

/-- An effective call is the last one of the program, which then returns a good value. -/
def Program.EffectLast (effective : (Σ c, Reply c) → Prop) (good : α → Prop) :
    Program Call Reply α → Prop
  | .done _ => True
  | .call c next => ∀ r, (effective ⟨c, r⟩ → ∃ a, good a ∧ next r = .done a) ∧
      (¬effective ⟨c, r⟩ → (next r).EffectLast effective good)

section EffectLast

variable {effective : (Σ c, Reply c) → Prop} {good : α → Prop}

/-- Calls that have no effect may come first. -/
theorem Program.EffectLast.bind {p : Program Call Reply β} {f : β → Program Call Reply α}
    (h : p.Issues fun c => ∀ r, ¬effective ⟨c, r⟩) (hf : ∀ b, (f b).EffectLast effective good) :
    (p.bind f).EffectLast effective good := by
  induction p with
  | done b => exact hf b
  | call c next ih => exact fun r => ⟨fun heffect => absurd heffect (h.1 r), fun _ => ih r (h.2 r)⟩

/-- Such a program has had no effect yet, or it has returned a good value. -/
theorem Among.effectLast {step : S → (c : Call) → Reply c → S → Prop} {others : S → S → Prop}
    {s₀ s : S} {p q : Program Call Reply α} {log : List (Σ c, Reply c)}
    (hp : p.EffectLast effective good) (run : Among step others s₀ p log s q) :
    (∀ entry ∈ log, ¬effective entry) ∧ q.EffectLast effective good ∨ ∃ a, good a ∧ q = .done a := by
  induction run with
  | start => exact Or.inl ⟨by simp, hp⟩
  | other _ _ ih => exact ih
  | @call log s c next r s' _ _ ih =>
      rcases ih with ⟨hnone, hnext⟩ | ⟨a, -, hdone⟩
      · obtain ⟨hgood, hrest⟩ := hnext r
        by_cases heffect : effective ⟨c, r⟩
        · exact Or.inr (hgood heffect)
        · refine Or.inl ⟨fun entry hentry => ?_, hrest heffect⟩
          rcases List.mem_append.mp hentry with hold | hnew
          · exact hnone entry hold
          · exact List.mem_singleton.mp hnew ▸ heffect
      · cases hdone

end EffectLast

/-! ## Projections -/

/-- A map of the states that respects the steps maps interleavings to interleavings. -/
theorem Reach.project {S' G' : Type} {sys : System S G Call Reply} {sys' : System S' G' Call Reply}
    {initial : S → Prop} {initial' : S' → Prop} {Spawn Spawn' : Program Call Reply α → Prop}
    (f : S → S') (hinit : ∀ s, initial s → initial' (f s)) (hspawn : ∀ p, Spawn p → Spawn' p)
    (hstep : ∀ s c r s', sys.step s c r s' → sys'.step (f s) c r (f s'))
    (hallowed : ∀ s g c, sys'.allowed s g c)
    {s : S} {threads : List (Thread G Call Reply α)} (run : Reach sys initial Spawn s threads) :
    ∃ threads', Reach sys' initial' Spawn' (f s) threads' ∧
      threads'.map (·.program) = threads.map (·.program) := by
  induction run with
  | start h => exact ⟨[], Reach.start (hinit _ h), rfl⟩
  | @spawn s threads p _ h ih =>
      obtain ⟨threads', run', hprograms⟩ := ih
      exact ⟨_, Reach.spawn run' (hspawn p h), by simp [hprograms]⟩
  | @step s g c next pre post r s' _ _ h ih =>
      obtain ⟨threads', run', hprograms⟩ := ih
      rw [List.map_append, List.map_cons] at hprograms
      obtain ⟨pre', rest', rfl, hpre, hrest⟩ := List.map_eq_append_iff.mp hprograms
      obtain ⟨⟨g', p⟩, post', rfl, hp, hpost⟩ := List.map_eq_cons_iff.mp hrest
      obtain rfl : p = .call c next := hp
      refine ⟨_, Reach.step run' (hallowed _ _ _) (hstep s c r s' h), ?_⟩
      simp [hpre, hpost]

/-! ## Concrete runs -/

/-- A way to execute the steps of a system, with one choice for each state, where the run may
take the step. -/
structure Execution (sys : System S G Call Reply) where
  exec : S → (c : Call) → Reply c × S
  ready : S → G → Call → Bool
  allowed : ∀ s g c, ready s g c = true → sys.allowed s g c
  step : ∀ s g c, ready s g c = true → sys.step s c (exec s c).1 (exec s c).2

namespace Execution

variable {sys : System S G Call Reply} (x : Execution sys) {initial : S → Prop}
  {Spawn : Program Call Reply α → Prop}

/-- Run a program to its end, unless one of its calls is not ready. -/
def run : Program Call Reply α → G → S → Option S
  | .done _, _, s => some s
  | .call c next, g, s =>
      if x.ready s g c then run (next (x.exec s c).1) (sys.observe s c g) (x.exec s c).2 else none

/-- The result of a program that runs alone, and the last state. -/
def eval : Program Call Reply α → S → α × S
  | .done a, s => (a, s)
  | .call c next, s => eval (next (x.exec s c).1) (x.exec s c).2

theorem eval_runs (g : G) (hready : ∀ s c, x.ready s g c = true) (p : Program Call Reply α)
    (s : S) : Runs sys.step p s (x.eval p s).1 (x.eval p s).2 := by
  induction p generalizing s with
  | done a => exact Runs.done
  | call c next ih => exact Runs.call (x.step s g c (hready s c)) (ih _ _)

/-- Run one program after the other. -/
def runAll : List (Program Call Reply α) → S → Option S
  | [], s => some s
  | p :: rest, s => (x.run p sys.start s).bind (runAll rest)

theorem run_sequence {p : Program Call Reply α} {s s' : S} {g : G} (h : x.run p g s = some s')
    (run : Sequence sys initial Spawn s g p) : ∃ g' a, Sequence sys initial Spawn s' g' (.done a) := by
  induction p generalizing s g with
  | done a =>
      obtain rfl : s = s' := Option.some.inj h
      exact ⟨g, a, run⟩
  | call c next ih =>
      rw [Execution.run] at h
      split at h
      · next hready =>
        exact ih _ h (Sequence.step run (x.allowed s g c hready) (x.step s g c hready))
      · cases h

theorem runAll_sequence {programs : List (Program Call Reply α)}
    (hprograms : ∀ p ∈ programs, Spawn p) {s s' : S} {g : G} {a : α}
    (h : x.runAll programs s = some s') (run : Sequence sys initial Spawn s g (.done a)) :
    ∃ g' b, Sequence sys initial Spawn s' g' (.done b) := by
  induction programs generalizing s g a with
  | nil =>
      obtain rfl : s = s' := Option.some.inj h
      exact ⟨g, a, run⟩
  | cons p rest ih =>
      obtain ⟨middle, hp, hrest⟩ := Option.bind_eq_some_iff.mp h
      obtain ⟨g', b, run'⟩ := x.run_sequence hp (Sequence.spawn run (hprograms p (by simp)))
      exact ih (fun q hq => hprograms q (List.mem_cons_of_mem _ hq)) hrest run'

/-- A test passed after a list of programs is passed by a state of a sequence. -/
theorem runAll_reaches [Inhabited α] {programs : List (Program Call Reply α)}
    (hprograms : ∀ p ∈ programs, Spawn p) {s : S} (hs : initial s) {test : S → Bool}
    (h : (x.runAll programs s).any test = true) :
    ∃ s' g a, Sequence sys initial Spawn s' g (.done a) ∧ test s' = true := by
  cases hrun : x.runAll programs s with
  | none => simp [hrun] at h
  | some s' =>
      rw [hrun] at h
      obtain ⟨g, a, run⟩ := x.runAll_sequence hprograms hrun (Sequence.start hs default)
      exact ⟨s', g, a, run, h⟩

end Execution

/-- One move of a concrete interleaving: start a program or execute a thread's next call. -/
inductive Move (Call : Type) (Reply : Call → Type) (α : Type) where
  | spawn (p : Program Call Reply α)
  | step (i : Nat)

/-- The programs a list of moves starts. -/
def Move.Spawns (Spawn : Program Call Reply α → Prop) : Move Call Reply α → Prop
  | .spawn p => Spawn p
  | .step _ => True

theorem Move.Spawns.mono {Spawn Spawn' : Program Call Reply α → Prop} {m : Move Call Reply α}
    (h : m.Spawns Spawn) (hsub : ∀ p, Spawn p → Spawn' p) : m.Spawns Spawn' := by
  cases m with
  | spawn p => exact hsub p h
  | step i => trivial

namespace Execution

variable {sys : System S G Call Reply} (x : Execution sys) {initial : S → Prop}
  {Spawn : Program Call Reply α → Prop}

/-- Execute the moves of a concrete interleaving. -/
def drive : List (Move Call Reply α) → S → List (Thread G Call Reply α) →
    Option (S × List (Thread G Call Reply α))
  | [], s, threads => some (s, threads)
  | .spawn p :: moves, s, threads => drive moves s (threads ++ [⟨sys.start, p⟩])
  | .step i :: moves, s, threads =>
      match threads[i]? with
      | some ⟨g, .call c next⟩ =>
          if x.ready s g c then
            drive moves (x.exec s c).2 (threads.set i ⟨sys.observe s c g, next (x.exec s c).1⟩)
          else none
      | _ => none

/-- The step of one thread, at its place in the list of threads. -/
theorem step_next {s : S} {threads : List (Thread G Call Reply α)} {i : Nat} {g : G} {c : Call}
    {next : Reply c → Program Call Reply α} (ht : threads[i]? = some ⟨g, .call c next⟩)
    (hready : x.ready s g c = true) :
    Next sys Spawn (s, threads)
      ((x.exec s c).2, threads.set i ⟨sys.observe s c g, next (x.exec s c).1⟩) := by
  obtain ⟨hlt, hget⟩ := List.getElem?_eq_some_iff.mp ht
  have hsplit : threads = threads.take i ++ ⟨g, .call c next⟩ :: threads.drop (i + 1) := by
    rw [← hget, List.getElem_cons_drop, List.take_append_drop]
  have hnext : Next sys Spawn (s, threads.take i ++ ⟨g, .call c next⟩ :: threads.drop (i + 1)) _ :=
    Next.step (x.allowed s g c hready) (x.step s g c hready)
  rw [← hsplit] at hnext
  rw [List.set_eq_take_append_cons_drop, if_pos hlt]
  exact hnext

/-- A concrete interleaving is one of the interleavings of the system. -/
theorem drive_later {moves : List (Move Call Reply α)} (hmoves : ∀ m ∈ moves, m.Spawns Spawn)
    {s s' : S} {threads threads' : List (Thread G Call Reply α)}
    (h : x.drive moves s threads = some (s', threads')) :
    Later sys Spawn (s, threads) (s', threads') := by
  induction moves generalizing s threads with
  | nil =>
      simp only [drive, Option.some.injEq, Prod.mk.injEq] at h
      obtain ⟨rfl, rfl⟩ := h
      exact Relation.ReflTransGen.refl
  | cons m moves ih =>
      have hrest : ∀ m ∈ moves, m.Spawns Spawn := fun m hm => hmoves m (List.mem_cons_of_mem _ hm)
      cases m with
      | spawn p => exact (ih hrest h).head (Next.spawn (hmoves (.spawn p) (by simp)))
      | step i =>
          rw [drive] at h
          split at h
          · next g c next ht =>
            split at h
            · next hready => exact (ih hrest h).head (x.step_next ht hready)
            · cases h
          · cases h

/-- A test passed by the end of a concrete interleaving is passed by a reachable configuration. -/
theorem drive_configuration {moves : List (Move Call Reply α)}
    (hmoves : ∀ m ∈ moves, m.Spawns Spawn) {s : S} (hs : initial s)
    {test : S × List (Thread G Call Reply α) → Bool}
    (h : (x.drive moves s []).any test = true) :
    ∃ s' threads, Reach sys initial Spawn s' threads ∧ test (s', threads) = true := by
  rw [Option.any_eq_true] at h
  obtain ⟨⟨s', threads⟩, hdrive, htest⟩ := h
  exact ⟨s', threads, (Reach.start hs).later (x.drive_later hmoves hdrive), htest⟩

/-- A test passed by the last state of a concrete interleaving is passed by a reachable state. -/
theorem drive_reaches {moves : List (Move Call Reply α)} (hmoves : ∀ m ∈ moves, m.Spawns Spawn)
    {s : S} (hs : initial s) {test : S → Bool}
    (h : (x.drive moves s []).any (fun final => test final.1) = true) :
    ∃ s' threads, Reach sys initial Spawn s' threads ∧ test s' = true :=
  x.drive_configuration hmoves hs h

/-- Two concrete interleavings, one after the other. -/
theorem drive_then {first second : List (Move Call Reply α)}
    (hfirst : ∀ m ∈ first, m.Spawns Spawn) (hsecond : ∀ m ∈ second, m.Spawns Spawn)
    {s : S} (hs : initial s) {test test' : S → Bool}
    (h : (x.drive first s []).any (fun middle => test middle.1 &&
      (x.drive second middle.1 middle.2).any fun final => test' final.1) = true) :
    ∃ s' threads s'' threads', Reach sys initial Spawn s' threads ∧
      Later sys Spawn (s', threads) (s'', threads') ∧ test s' = true ∧ test' s'' = true := by
  rw [Option.any_eq_true] at h
  obtain ⟨⟨s', threads⟩, hdrive, h⟩ := h
  rw [Bool.and_eq_true, Option.any_eq_true] at h
  obtain ⟨htest, ⟨s'', threads'⟩, hdrive', htest'⟩ := h
  exact ⟨s', threads, s'', threads', (Reach.start hs).later (x.drive_later hfirst hdrive),
    x.drive_later hsecond hdrive', htest, htest'⟩

/-- A concrete interleaving, and one of another system that starts from its last state. -/
theorem drive_again {sys' : System S G Call Reply} (x' : Execution sys')
    {Spawn' : Program Call Reply β → Prop} {first : List (Move Call Reply α)}
    {second : List (Move Call Reply β)} (hfirst : ∀ m ∈ first, m.Spawns Spawn)
    (hsecond : ∀ m ∈ second, m.Spawns Spawn') {s : S} (hs : initial s)
    {test : S → S × List (Thread G Call Reply β) → Bool}
    (h : (x.drive first s []).any (fun middle =>
      (x'.drive second middle.1 []).any (test middle.1)) = true) :
    ∃ s' threads s'' threads', Reach sys initial Spawn s' threads ∧
      Reach sys' (· = s') Spawn' s'' threads' ∧ test s' (s'', threads') = true := by
  rw [Option.any_eq_true] at h
  obtain ⟨⟨s', threads⟩, hdrive, h⟩ := h
  rw [Option.any_eq_true] at h
  obtain ⟨⟨s'', threads'⟩, hdrive', htest⟩ := h
  have hstart : Reach sys' (· = s') Spawn' s' [] := Reach.start rfl
  exact ⟨s', threads, s'', threads', (Reach.start hs).later (x.drive_later hfirst hdrive),
    hstart.later (x'.drive_later hsecond hdrive'), htest⟩

end Execution

end Ody.Library.Interleaving
