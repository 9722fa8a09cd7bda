import Ody.Schedule.Misfires

/-!
# What the parser returns

A cron expression is a calendar expression or a descriptor, and `@every` is a
constant delay: its next instant depends on where it is asked from. `tick` asks
one nanosecond before the stored instant, which is right for a calendar only.
When a schedule has no instant left, its `Next` is the zero time; the loop of
`occurrences` takes it for an instant of the past.
-/

namespace Ody.Schedule

open Set Library.Windows

/-! ## Due instants -/

section Due

variable {schedule : Time → Time}

/-- A schedule that goes on lists instants from the first one to the end of the window. -/
theorem mem_occurrencesLoop_ge (hlt : ∀ t, t < schedule t) {through : Time} {room : Nat}
    {next x : Time} (hx : x ∈ occurrencesLoop schedule through room next) : next ≤ x := by
  induction room generalizing next with
  | zero => cases hx
  | succ room ih =>
      rw [occurrencesLoop] at hx
      split at hx
      · rcases List.mem_cons.mp hx with rfl | hrest
        · exact le_rfl
        · exact (hlt next).le.trans (ih hrest)
      · cases hx

theorem occurrences_ne_nil_iff {after through : Time} {limit : Int} :
    occurrences schedule after through limit ≠ [] ↔ schedule after ≤ through := by
  obtain ⟨room, hroom⟩ := Nat.exists_eq_succ_of_ne_zero (catchUpLimit_pos limit).ne'
  unfold occurrences
  rw [hroom, occurrencesLoop]
  split <;> simp_all

/-- The policies choose among the listed instants. -/
theorem Definition.due_subset (d : Definition) (next now : Time) :
    d.due next now ⊆ occurrences d.schedule (next - 1) now d.options.maxCatchUp := by
  unfold Definition.due
  dsimp only
  repeat' split
  · exact latestOnly_subset _
  · exact latestOnly_subset _
  · exact List.Subset.refl _

theorem Definition.due_eq_nil_iff (d : Definition) (next now : Time) :
    d.due next now = [] ↔ occurrences d.schedule (next - 1) now d.options.maxCatchUp = [] := by
  unfold Definition.due
  dsimp only
  repeat' split
  · exact latestOnly_eq_nil_iff
  · exact latestOnly_eq_nil_iff
  · exact Iff.rfl

theorem Definition.recovered_eq_nil_iff (d : Definition) (now : Time) :
    d.recovered now = [] ↔
      (0 < d.options.lookback ∧ d.options.misfire ≠ .skip →
        occurrences d.schedule (now - d.options.lookback) now d.options.maxCatchUp = []) := by
  unfold Definition.recovered
  dsimp only
  split
  · next henabled =>
    rw [imp_iff_right henabled]
    split
    · exact latestOnly_eq_nil_iff
    · exact Iff.rfl
  · next hdisabled => exact iff_of_true rfl fun henabled => absurd henabled hdisabled

/-- Something is fired between the stored instant and the clock exactly if the instant after the
nanosecond before the stored one has come. -/
theorem Definition.due_fires_iff {d : Definition} (hlt : ∀ t, t < d.schedule t) (next now : Time) :
    (∃ at' ∈ d.due next now, next ≤ at' ∧ at' ≤ now) ↔ d.schedule (next - 1) ≤ now := by
  have hfirst : next ≤ d.schedule (next - 1) := Int.sub_one_lt_iff.mp (hlt (next - 1))
  constructor
  · rintro ⟨at', hmem, -, hle⟩
    exact (mem_occurrencesLoop_ge hlt (d.due_subset next now hmem)).trans hle
  · intro hle
    have hne : d.due next now ≠ [] := by
      rw [ne_eq, d.due_eq_nil_iff]
      exact occurrences_ne_nil_iff.mpr hle
    obtain ⟨at', hmem⟩ := List.exists_mem_of_ne_nil _ hne
    have hlisted := d.due_subset next now hmem
    exact ⟨at', hmem, hfirst.trans (mem_occurrencesLoop_ge hlt hlisted), occurrencesLoop_le hlisted⟩

end Due

/-! ## Calendars and delays -/

def second : Duration := 1000000000

/-- `Next` of a constant delay. -/
def constantDelay (delay : Duration) (t : Time) : Time := t + (delay - t % second)

/-- What the parser returns: a calendar gives the least of its instants after any time, and `@every`
is a delay of whole seconds. -/
inductive Cron : (Time → Time) → Prop
  | calendar {schedule : Time → Time} (S : Set Time) (h : Successor S schedule) : Cron schedule
  | every (delay : Duration) (hpos : 0 < delay) (hwhole : second ∣ delay) :
      Cron (constantDelay delay)

theorem constantDelay_eq (delay t : Int) : constantDelay delay t = t - t % second + delay := by
  rw [constantDelay, ← add_sub_assoc, sub_add_eq_add_sub]

theorem constantDelay_lt {delay : Int} (hpos : 0 < delay) (hwhole : second ∣ delay) (t : Int) :
    t < constantDelay delay t := by
  have hsecond : second ≤ delay := Int.le_of_dvd hpos hwhole
  have hpart : t % second < second := Int.emod_lt_of_pos t (by decide)
  calc t = t - t % second + t % second := (Int.sub_add_cancel _ _).symm
    _ < t - t % second + second := Int.add_lt_add_left hpart _
    _ ≤ t - t % second + delay := Int.add_le_add_left hsecond _
    _ = constantDelay delay t := (constantDelay_eq delay t).symm

theorem Cron.lt {schedule : Time → Time} (h : Cron schedule) (t : Time) : t < schedule t := by
  cases h with
  | calendar S h => exact h.lt t
  | every delay hpos hwhole => exact constantDelay_lt hpos hwhole t

/-- The instants of a delay are whole seconds. -/
theorem second_dvd_constantDelay {delay : Duration} (hwhole : second ∣ delay) (t : Time) :
    second ∣ constantDelay delay t := by
  have hpart : second ∣ t - t % second := Int.dvd_self_sub_emod
  rw [constantDelay_eq]
  exact Int.dvd_add hpart hwhole

/-- One nanosecond before a whole second a delay counts from the second before. -/
theorem constantDelay_before {next : Int} (hnext : second ∣ next) (delay : Int) :
    constantDelay delay (next - 1) = next + delay - second := by
  have hpart : (next - 1) % second = second - 1 := by
    obtain ⟨k, rfl⟩ := hnext
    simp only [second]
    omega
  rw [constantDelay_eq, hpart, sub_sub_sub_cancel_right, sub_add_eq_add_sub]

theorem constantDelay_injective : Function.Injective constantDelay := by
  intro delay delay' heq
  have hzero := congrFun heq 0
  simpa [constantDelay] using hzero

/-- A calendar has the same next instant wherever in the gap before it it is asked. -/
theorem successor_before {S : Set Time} {schedule : Time → Time} (h : Successor S schedule)
    (t : Time) : schedule (schedule t - 1) = schedule t :=
  h.eq_of_lt (Int.le_sub_one_of_lt (h.lt t)) (Int.sub_lt_self _ Int.one_pos)

namespace Scheduler

variable {s : Scheduler} {d : Definition}

/-- The stored instant is always an instant of the schedule. -/
theorem run_next (hd : d ∈ s.definitions) (start : Time) (ticks : List Time) :
    ∃ t, (s.run start ticks).2.nextOf d.name = d.schedule t := by
  induction ticks using List.reverseRecOn with
  | nil => exact ⟨start, (initializeAt_own hd start).2⟩
  | append_singleton ticks now ih =>
      have hdefinitions : d ∈ (s.run start ticks).2.definitions := by
        rw [run_definitions]
        exact hd
      rw [run_concat]
      rcases lt_or_ge now ((s.run start ticks).2.nextOf d.name) with hearly | hdue
      · rw [(tick_early hdefinitions hearly).2]
        exact ih
      · exact ⟨now, (tick_due hdefinitions hdue).2⟩

end Scheduler

/-- In every state that `initialize` and ticks reach, a tick at or after the stored instant fires an
instant between the two exactly if the schedule is a calendar or the clock has come within a second
of the delay after the stored instant. -/
theorem due_fired_iff {parse : String → Except GoError (Time → Time)}
    (hparse : ∀ text schedule, parse text = .ok schedule → Cron schedule)
    {name expression : String} {options : List (Settings → Settings)} {d : Definition}
    (haccepted : newDefinition parse name expression options = .ok d)
    {s : Scheduler} (hd : d ∈ s.definitions) (start : Time) (ticks : List Time) (now : Time)
    (hdue : (s.run start ticks).2.nextOf d.name ≤ now) :
    (∃ at' ∈ instants d.name ((s.run start ticks).2.tick now).1,
        (s.run start ticks).2.nextOf d.name ≤ at' ∧ at' ≤ now) ↔
      (∃ S, Successor S d.schedule) ∨ ∃ delay, d.schedule = constantDelay delay ∧
        (s.run start ticks).2.nextOf d.name + delay - second ≤ now := by
  obtain ⟨text, htext⟩ := newDefinition_parsed haccepted
  have hcron := hparse text d.schedule htext
  have hdefinitions : d ∈ (s.run start ticks).2.definitions := by
    rw [Scheduler.run_definitions]
    exact hd
  obtain ⟨t, hnext⟩ := Scheduler.run_next hd start ticks
  rw [(Scheduler.tick_due hdefinitions hdue).1, Definition.due_fires_iff hcron.lt]
  generalize (s.run start ticks).2.nextOf d.name = next at hdue hnext ⊢
  generalize d.schedule = schedule at hcron hnext ⊢
  subst hnext
  cases hcron with
  | calendar S h =>
      refine iff_of_true ?_ (Or.inl ⟨S, h⟩)
      rw [successor_before h]
      exact hdue
  | every delay hpos hwhole =>
      constructor
      · intro hle
        rw [constantDelay_before (second_dvd_constantDelay hwhole t)] at hle
        exact Or.inr ⟨delay, rfl, hle⟩
      · rintro (⟨S, h⟩ | ⟨delay', heq, hle⟩)
        · rw [successor_before h]
          exact hdue
        · obtain rfl := constantDelay_injective heq
          rw [constantDelay_before (second_dvd_constantDelay hwhole t)]
          exact hle

/-- A parser that knows one descriptor, of one hour. -/
def parseHourly (text : String) : Except GoError (Time → Time) :=
  if text = "CRON_TZ=UTC @every 1h" then .ok (constantDelay hour)
  else .error (.text "unknown expression")

/-- The definition of that descriptor. -/
def everyHour : Definition := ⟨"report", constantDelay hour, ⟨.skip, 0, 100⟩⟩

def everyHourScheduler : Scheduler := ⟨[everyHour], ∅, by simp⟩

theorem parseHourly_cron (text : String) (schedule : Time → Time)
    (h : parseHourly text = .ok schedule) : Cron schedule := by
  unfold parseHourly at h
  split at h
  · cases h
    exact Cron.every hour (by decide) (by decide)
  · cases h

theorem due_fired_iff_of_late :
    ∃ at' ∈ instants "report" ((everyHourScheduler.run 7 []).2.tick (2 * hour)).1,
      hour ≤ at' ∧ at' ≤ 2 * hour := by
  have haccepted : newDefinition parseHourly "report" "@every 1h" [] = .ok everyHour := by rfl
  have hmem : everyHour ∈ everyHourScheduler.definitions := List.mem_singleton.mpr rfl
  have hfired := due_fired_iff parseHourly_cron haccepted hmem 7 [] (2 * hour) (by decide)
  exact hfired.mpr (Or.inr ⟨hour, rfl, by decide⟩)

/-- Half a second after the stored instant: nothing is fired, and the instant is moved on. -/
theorem due_instant_dropped :
    newDefinition parseHourly "report" "@every 1h" [] = .ok everyHour ∧
      (everyHourScheduler.run 7 []).2.nextOf "report" = hour ∧
      ((everyHourScheduler.run 7 []).2.tick (hour + 500000000)).1 = [] ∧
      ((everyHourScheduler.run 7 []).2.tick (hour + 500000000)).2.nextOf "report" = 2 * hour := by
  refine ⟨by rfl, by decide, by decide, by decide⟩

/-! ## Schedules that end -/

/-- The instants that a schedule goes through from a time on, until it returns the zero time. -/
inductive Visits (schedule : Time → Time) : Time → Time → Prop
  | next {t : Time} (h : schedule t ≠ zeroTime) : Visits schedule t (schedule t)
  | later {t x : Time} (h : schedule t ≠ zeroTime) (hx : Visits schedule (schedule t) x) :
      Visits schedule t x

/-- What `occurrences` is for: instants of the window in increasing order. -/
structure RealInstants (after through : Time) (l : List Time) : Prop where
  sorted : l.Pairwise (· < ·)
  inside : ∀ x ∈ l, x ∈ Ioc after through
  real : ∀ x ∈ l, x ≠ zeroTime

section Ending

variable {schedule : Time → Time} {t t' x through : Time}

theorem Visits.exists (h : Visits schedule t x) : schedule t ≠ zeroTime := by
  cases h with
  | next h => exact h
  | later h hx => exact h

theorem Visits.lt (hnext : ∀ t, schedule t ≠ zeroTime → t < schedule t)
    (h : Visits schedule t x) : t < x := by
  induction h with
  | next h => exact hnext _ h
  | later h _ ih => exact (hnext _ h).trans ih

theorem visits_iff (h : schedule t ≠ zeroTime) :
    Visits schedule t x ↔ x = schedule t ∨ Visits schedule (schedule t) x := by
  constructor
  · intro hx
    cases hx with
    | next => exact Or.inl rfl
    | later _ hx => exact Or.inr hx
  · rintro (rfl | hx)
    · exact Visits.next h
    · exact Visits.later h hx

/-- An instant in front of the real instants after it. -/
theorem realInstants_cons_iff (hreal : t' ≠ zeroTime) (hlt : t < t') (hle : t' ≤ through)
    {l : List Time} : RealInstants t through (t' :: l) ↔ RealInstants t' through l := by
  constructor
  · intro h
    have hsorted := List.pairwise_cons.mp h.sorted
    refine ⟨hsorted.2, fun x hx => ⟨hsorted.1 x hx, ?_⟩, fun x hx => ?_⟩
    · exact (h.inside x (List.mem_cons_of_mem _ hx)).2
    · exact h.real x (List.mem_cons_of_mem _ hx)
  · intro h
    refine ⟨List.pairwise_cons.mpr ⟨fun x hx => (h.inside x hx).1, h.sorted⟩, ?_, ?_⟩
    · exact List.forall_mem_cons.mpr ⟨⟨hlt, hle⟩, fun x hx =>
        ⟨hlt.trans (h.inside x hx).1, (h.inside x hx).2⟩⟩
    · exact List.forall_mem_cons.mpr ⟨hreal, h.real⟩

/-- The visited instants of a window are the next one and those after it. -/
theorem ncard_visits (hnext : ∀ t, schedule t ≠ zeroTime → t < schedule t)
    (hreal : schedule t ≠ zeroTime) (hle : schedule t ≤ through) :
    {x | Visits schedule t x ∧ x ≤ through}.ncard =
      {x | Visits schedule (schedule t) x ∧ x ≤ through}.ncard + 1 := by
  have hfinite : {x | Visits schedule (schedule t) x ∧ x ≤ through}.Finite :=
    (finite_Ioc (schedule t) through).subset fun x hx => ⟨hx.1.lt hnext, hx.2⟩
  have hnew : schedule t ∉ {x | Visits schedule (schedule t) x ∧ x ≤ through} :=
    fun hmem => lt_irrefl _ (hmem.1.lt hnext)
  rw [← ncard_insert_of_notMem hnew hfinite]
  congr 1
  ext x
  simp only [mem_ofPred_eq, mem_insert_iff, visits_iff hreal, or_and_right]
  exact or_congr_left (and_iff_left_of_imp fun hx => hx.le.trans hle)

/-- The loop lists real instants if it cannot take the zero time for one: the window ends before it,
or the schedule goes on after the window, or the result is full before the schedule ends. -/
theorem realInstants_occurrencesLoop_iff (hnext : ∀ t, schedule t ≠ zeroTime → t < schedule t)
    (room : Nat) :
    RealInstants t through (occurrencesLoop schedule through room (schedule t)) ↔
      through < zeroTime ∨ (∃ x, Visits schedule t x ∧ through < x) ∨
        room ≤ {x | Visits schedule t x ∧ x ≤ through}.ncard := by
  induction room generalizing t with
  | zero =>
      refine iff_of_true ?_ (Or.inr (Or.inr (Nat.zero_le _)))
      exact ⟨List.Pairwise.nil, by simp [occurrencesLoop], by simp [occurrencesLoop]⟩
  | succ room ih =>
      rw [occurrencesLoop]
      by_cases hreal : schedule t = zeroTime
      · -- there is no instant left, and the loop looks at the zero time
        have hnone : ∀ x, ¬Visits schedule t x := fun x hx => hx.exists hreal
        rw [hreal]
        split
        · next hle =>
          refine iff_of_false (fun h => h.real zeroTime (List.mem_cons_self ..) rfl) ?_
          simp [hnone, hle]
        · next hlt =>
          refine iff_of_true ?_ (Or.inl (not_le.mp hlt))
          exact ⟨List.Pairwise.nil, by simp, by simp⟩
      · have hlt := hnext t hreal
        split
        · next hle =>
          have hbeyond : (∃ x, Visits schedule t x ∧ through < x) ↔
              ∃ x, Visits schedule (schedule t) x ∧ through < x := by
            simp only [visits_iff hreal, or_and_right, exists_or, exists_eq_left]
            exact or_iff_right (not_lt.mpr hle)
          rw [realInstants_cons_iff hreal hlt hle, ih, hbeyond, ncard_visits hnext hreal hle,
            Nat.add_le_add_iff_right]
        · next hbeyond =>
          refine iff_of_true ⟨List.Pairwise.nil, by simp, by simp⟩ ?_
          exact Or.inr (Or.inl ⟨_, Visits.next hreal, not_le.mp hbeyond⟩)

end Ending

/-- `occurrences` lists real instants exactly if the window ends before the zero time, or the schedule
has an instant after the window, or the window has as many as the limit. A schedule with no instant
at all is fired by `initialize` and by every tick, unless the clock is before the zero time or the
lookback is off. -/
theorem real_instants_iff {schedule : Time → Time}
    (hnext : ∀ t, schedule t ≠ zeroTime → t < schedule t) (after through : Time) (limit : Int) :
    (RealInstants after through (occurrences schedule after through limit) ↔
      through < zeroTime ∨ (∃ x, Visits schedule after x ∧ through < x) ∨
        catchUpLimit limit ≤ {x | Visits schedule after x ∧ x ≤ through}.ncard) ∧
    ∀ (s : Scheduler) (d : Definition), d ∈ s.definitions → d.schedule = schedule →
      (∀ t, schedule t = zeroTime) → ∀ (start : Time) (ticks : List Time) (now : Time),
      (instants d.name (s.initializeAt start).1 = [] ↔
        start < zeroTime ∨ d.options.lookback ≤ 0 ∨ d.options.misfire = .skip) ∧
      (instants d.name ((s.run start ticks).2.tick now).1 = [] ↔ now < zeroTime) := by
  refine ⟨realInstants_occurrencesLoop_iff hnext _, ?_⟩
  rintro s d hd rfl hnone start ticks now
  have hempty : ∀ after through limit,
      occurrences d.schedule after through limit = [] ↔ through < zeroTime := by
    intro after through limit
    rw [← not_iff_not, ← ne_eq, occurrences_ne_nil_iff, hnone, not_lt]
  constructor
  · rw [(Scheduler.initializeAt_own hd start).1, d.recovered_eq_nil_iff, hempty, imp_iff_not_or,
      not_and_or, not_lt, not_not, or_comm]
  · obtain ⟨t, hstored⟩ := Scheduler.run_next hd start ticks
    rw [hnone] at hstored
    have hdefinitions : d ∈ (s.run start ticks).2.definitions := by
      rw [Scheduler.run_definitions]
      exact hd
    rcases lt_or_ge now zeroTime with hearly | hdue
    · exact iff_of_true (Scheduler.tick_early hdefinitions (hstored ▸ hearly)).1 hearly
    · rw [(Scheduler.tick_due hdefinitions (hstored.trans_le hdue)).1, d.due_eq_nil_iff, hempty]

/-- A definition with no instant, such as the thirtieth of February. -/
def neverDue : Definition := ⟨"report", fun _ => zeroTime, ⟨.catchUp, hour, 3⟩⟩

def neverDueScheduler : Scheduler := ⟨[neverDue], ∅, by simp⟩

theorem real_instants_iff_of_hourly :
    RealInstants 7 (2 * hour) (occurrences hourly 7 (2 * hour) 10) ∧
      instants "report" (neverDueScheduler.initializeAt (-1)).1 = [] := by
  constructor
  · have hreal := (real_instants_iff (fun t _ => hourly_successor.lt t) 7 (2 * hour) 10).1
    refine hreal.mpr (Or.inr (Or.inl ⟨3 * hour, ?_, by decide⟩))
    exact Visits.later (by decide) (Visits.later (by decide) (Visits.next (by decide)))
  · have hnever := (real_instants_iff (fun t h => absurd rfl h) (-1) (-1) 3).2 neverDueScheduler
      neverDue (List.mem_singleton.mpr rfl) rfl (fun _ => rfl) (-1) [] (-1)
    exact hnever.1.mpr (Or.inl (by decide))

/-- The schedule with no instant is fired three times by `initialize` and by each tick. -/
theorem zero_time_fired :
    (∀ t, neverDue.schedule t = zeroTime) ∧
      occurrences neverDue.schedule 7 hour 3 = [zeroTime, zeroTime, zeroTime] ∧
      instants "report" (neverDueScheduler.initializeAt hour).1 = [zeroTime, zeroTime, zeroTime] ∧
      instants "report" ((neverDueScheduler.run hour []).2.tick (2 * hour)).1 =
        [zeroTime, zeroTime, zeroTime] := by
  refine ⟨fun _ => rfl, by decide, by decide, by decide⟩

end Ody.Schedule
