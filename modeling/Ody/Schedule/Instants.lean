import Mathlib
import Ody.Library.Windows
import Ody.Schedule.Scheduler

/-!
# The instants of a schedule

`initialize` looks back over one window, each `tick` starts its window one
nanosecond before the stored next instant, and the next instant is stored as the
first one after the clock. For a schedule that gives the least instant after any
time these windows are adjacent, whatever the clock does between two ticks. With
`MisfireCatchUp` nothing is dropped as long as no window is cut at its limit.
-/

namespace Ody.Schedule

open Set Library.Windows

variable {S : Set Time} {schedule : Time → Time}

/-- A call of `occurrences` that is not cut at its limit lists its window. -/
theorem occurrencesLoop_enumerates (h : Successor S schedule) (through : Time) (room : Nat)
    (after : Time)
    (hroom : (occurrencesLoop schedule through room (schedule after)).length < room) :
    Enumerates S (Ioc after through) (occurrencesLoop schedule through room (schedule after)) := by
  induction room generalizing after with
  | zero => cases hroom
  | succ room ih =>
      rw [occurrencesLoop] at hroom ⊢
      split at hroom
      · next hle =>
        rw [List.length_cons] at hroom
        have hrest := ih (schedule after) (Nat.lt_of_succ_lt_succ hroom)
        rw [if_pos hle]
        exact (h.single after).append hrest (h.lt after).le hle
      · next hlt =>
        rw [if_neg hlt]
        exact h.empty (not_le.mp hlt)

theorem occurrences_enumerates (h : Successor S schedule) {after through : Time} {limit : Int}
    (hroom : (occurrences schedule after through limit).length < catchUpLimit limit) :
    Enumerates S (Ioc after through) (occurrences schedule after through limit) :=
  occurrencesLoop_enumerates h through _ after hroom

/-- The window of the whole run starts at the lookback. -/
def Definition.windowStart (d : Definition) (start : Time) : Time :=
  if 0 < d.options.lookback then start - d.options.lookback else start

/-- The largest clock value of a run. -/
def latestClock (start : Time) (ticks : List Time) : Time := ticks.foldl max start

theorem latestClock_concat (start : Time) (ticks : List Time) (now : Time) :
    latestClock start (ticks ++ [now]) = max (latestClock start ticks) now := by
  rw [latestClock, List.foldl_append]
  rfl

theorem le_latestClock (start : Time) (ticks : List Time) : start ≤ latestClock start ticks := by
  induction ticks using List.reverseRecOn with
  | nil => exact le_rfl
  | append_singleton ticks now ih =>
      rw [latestClock_concat]
      exact ih.trans (le_max_left _ _)

/-- No call of `occurrences` for the definition reaches its limit. -/
structure WithinLimit (s : Scheduler) (d : Definition) (start : Time) (ticks : List Time) :
    Prop where
  lookback : 0 < d.options.lookback →
    (occurrences d.schedule (start - d.options.lookback) start d.options.maxCatchUp).length <
      catchUpLimit d.options.maxCatchUp
  ticks : ∀ before now, before ++ [now] <+: ticks → (s.run start before).2.nextOf d.name ≤ now →
    (occurrences d.schedule ((s.run start before).2.nextOf d.name - 1) now
      d.options.maxCatchUp).length < catchUpLimit d.options.maxCatchUp

theorem WithinLimit.initial {s : Scheduler} {d : Definition} {start now : Time} {ticks : List Time}
    (h : WithinLimit s d start (ticks ++ [now])) : WithinLimit s d start ticks where
  lookback := h.lookback
  ticks := fun before now' hearlier =>
    h.ticks before now' (hearlier.trans (List.prefix_append ticks [now]))

/-- What was fired up to the largest clock value, and the instant that is next. -/
structure Covers (S : Set Time) (d : Definition) (start latest : Time) (fires : List Fire)
    (s : Scheduler) : Prop where
  fired : Enumerates S (Ioc (d.windowStart start) latest) (instants d.name fires)
  next : s.nextOf d.name = d.schedule latest

section Run

variable {s : Scheduler} {d : Definition}

theorem covers_initializeAt (hd : d ∈ s.definitions) (hS : Successor S d.schedule)
    (hpolicy : d.options.misfire = .catchUp) {start : Time}
    (hlimit : 0 < d.options.lookback →
      (occurrences d.schedule (start - d.options.lookback) start d.options.maxCatchUp).length <
        catchUpLimit d.options.maxCatchUp) :
    Covers S d start start (s.initializeAt start).1 (s.initializeAt start).2 := by
  obtain ⟨hfired, hnext⟩ := Scheduler.initializeAt_own hd start
  refine ⟨?_, hnext⟩
  rw [hfired, Definition.recovered, Definition.windowStart]
  by_cases hlookback : 0 < d.options.lookback
  · simpa [hlookback, hpolicy] using occurrences_enumerates hS (hlimit hlookback)
  · simpa [hlookback] using hS.empty (hS.lt start)

/-- One tick extends what is covered to its clock value. -/
theorem Covers.tick {start latest now : Time} {fires : List Fire}
    (h : Covers S d start latest fires s) (hd : d ∈ s.definitions) (hS : Successor S d.schedule)
    (hpolicy : d.options.misfire = .catchUp) (hstart : d.windowStart start ≤ latest)
    (hlimit : s.nextOf d.name ≤ now →
      (occurrences d.schedule (s.nextOf d.name - 1) now d.options.maxCatchUp).length <
        catchUpLimit d.options.maxCatchUp) :
    Covers S d start (max latest now) (fires ++ (s.tick now).1) (s.tick now).2 := by
  have hlt := hS.lt latest
  have hlast : latest ≤ max latest now := le_max_left latest now
  rcases lt_or_ge now (s.nextOf d.name) with hearly | hdue
  · -- nothing lies between the largest clock value and the next instant
    obtain ⟨hfired, hnext⟩ := Scheduler.tick_early hd hearly
    rw [h.next] at hearly
    have hmax : max latest now < d.schedule latest := max_lt hlt hearly
    constructor
    · rw [instants_append, hfired]
      exact h.fired.append (hS.empty hmax) hstart hlast
    · rw [hnext, h.next]
      exact (hS.eq_of_lt hlast hmax).symm
  · obtain ⟨hfired, hnext⟩ := Scheduler.tick_due hd hdue
    have henumerates := occurrences_enumerates hS (hlimit hdue)
    rw [h.next] at hfired hdue henumerates
    have hnow : max latest now = now := max_eq_right (hlt.le.trans hdue)
    have hwindow := hS.window (Int.le_sub_one_of_lt hlt) (Int.sub_lt_self _ Int.one_pos) henumerates
    rw [hnow]
    constructor
    · rw [instants_append, hfired]
      have hall : d.due (d.schedule latest) now =
          occurrences d.schedule (d.schedule latest - 1) now d.options.maxCatchUp := by
        simp [Definition.due, hpolicy]
      rw [hall]
      exact h.fired.append hwindow hstart (hlt.le.trans hdue)
    · exact hnext

theorem covers_run (hd : d ∈ s.definitions) (hS : Successor S d.schedule)
    (hpolicy : d.options.misfire = .catchUp) {start : Time} {ticks : List Time}
    (hlimit : WithinLimit s d start ticks) :
    Covers S d start (latestClock start ticks) (s.run start ticks).1 (s.run start ticks).2 := by
  induction ticks using List.reverseRecOn with
  | nil => exact covers_initializeAt hd hS hpolicy hlimit.lookback
  | append_singleton ticks now ih =>
      have hwindow : d.windowStart start ≤ latestClock start ticks := by
        refine le_trans ?_ (le_latestClock start ticks)
        unfold Definition.windowStart
        split
        · next hlookback => exact Int.sub_le_self start hlookback.le
        · exact le_rfl
      have hdefinitions : d ∈ (s.run start ticks).2.definitions := by
        rw [Scheduler.run_definitions]
        exact hd
      rw [Scheduler.run_concat, latestClock_concat]
      exact (ih hlimit.initial).tick hdefinitions hS hpolicy hwindow
        (hlimit.ticks ticks now List.prefix_rfl)

/-- With `MisfireCatchUp` a run whose windows stay within their limit fires every instant from its
lookback to its largest clock value, each once and in increasing order. -/
theorem fires_every_instant (hd : d ∈ s.definitions) (hS : Successor S d.schedule)
    (hpolicy : d.options.misfire = .catchUp) {start : Time} {ticks : List Time}
    (hlimit : WithinLimit s d start ticks) :
    (instants d.name (s.run start ticks).1).Pairwise (· < ·) ∧
      ∀ at', at' ∈ instants d.name (s.run start ticks).1 ↔ at' ∈ S ∧
        (if 0 < d.options.lookback then start - d.options.lookback else start) < at' ∧
          at' ≤ ticks.foldl max start := by
  have hcovers := (covers_run hd hS hpolicy hlimit).fired
  exact ⟨hcovers.sorted, hcovers.mem_iff⟩

end Run

/-! ## An hourly schedule -/

/-- One hour. -/
def hour : Duration := 3600000000000

/-- `Next` of the schedule `@hourly`. -/
def hourly (t : Time) : Time := (t / hour + 1) * hour

theorem hourly_successor : Successor {t | hour ∣ t} hourly := by
  intro t
  have hpos : 0 < hour := by decide
  constructor
  · exact ⟨dvd_mul_left hour _, Int.lt_ediv_add_one_mul_self t hpos⟩
  · rintro x ⟨⟨k, rfl⟩, hlt⟩
    have hk : t / hour < k := Int.ediv_lt_of_lt_mul hpos (by rwa [mul_comm] at hlt)
    calc hourly t = hour * (t / hour + 1) := mul_comm _ _
      _ ≤ hour * k := Int.mul_le_mul_of_nonneg_left hk hpos.le

/-- A definition that looks back two hours. -/
def hourlyReport : Definition := ⟨"report", hourly, ⟨.catchUp, 2 * hour, 10⟩⟩

/-- The scheduler with that definition. -/
def reportScheduler : Scheduler := ⟨[hourlyReport], ∅, by decide⟩

/-- The clock goes back once and jumps ahead. -/
def reportTicks : List Time := [6 * hour, 5 * hour, 9 * hour + 1]

theorem fires_every_instant_of_reportTicks :
    (instants "report" (reportScheduler.run (5 * hour + 7) reportTicks).1).Pairwise (· < ·) ∧
      ∀ at', at' ∈ instants "report" (reportScheduler.run (5 * hour + 7) reportTicks).1 ↔
        hour ∣ at' ∧ 3 * hour + 7 < at' ∧ at' ≤ 9 * hour + 1 := by
  have hlimit : WithinLimit reportScheduler hourlyReport (5 * hour + 7) reportTicks := by
    refine ⟨by decide, ?_⟩
    rintro before now ⟨rest, hticks⟩
    rcases before with _ | ⟨first, _ | ⟨second, _ | ⟨third, more⟩⟩⟩ <;>
      simp only [reportTicks, List.nil_append, List.cons_append, List.cons.injEq] at hticks
    · obtain ⟨rfl, -⟩ := hticks
      decide
    · obtain ⟨rfl, rfl, -⟩ := hticks
      decide
    · obtain ⟨rfl, rfl, rfl, -⟩ := hticks
      decide
    · simp at hticks
  exact fires_every_instant (List.mem_singleton.mpr rfl) hourly_successor rfl hlimit

end Ody.Schedule
