import Ody.Schedule.Instants

/-!
# The latest instant

With `MisfireLatest`, and in a `tick` also with `MisfireSkip`, one instant of a
window is fired: the last one that `occurrences` lists. The list is cut at the
catch-up limit before its last element is taken, so it is the greatest instant of
the window exactly if the window has no more instants than the limit.
-/

namespace Ody.Schedule

open Set Library.Windows

variable {S : Set Time} {schedule : Time → Time}

/-- The greatest of these instants is fired, or nothing if there is none. -/
structure FiresLatest (window : Set Time) (fired : List Time) : Prop where
  latest : ∀ at', IsGreatest window at' → fired = [at']
  nothing : window = ∅ → fired = []

/-- One fired instant is the right one if it is the greatest. -/
theorem firesLatest_singleton_iff {window : Set Time} (hfinite : window.Finite)
    (hne : window.Nonempty) {fired : Time} :
    FiresLatest window [fired] ↔ IsGreatest window fired := by
  constructor
  · intro hfires
    obtain ⟨at', hat, hmax⟩ := exists_max_image window id hfinite hne
    have hlast := hfires.latest at' ⟨hat, hmax⟩
    rw [List.cons.injEq] at hlast
    exact hlast.1 ▸ ⟨hat, hmax⟩
  · intro hgreatest
    refine ⟨fun at' hat => by rw [hgreatest.unique hat], fun hempty => ?_⟩
    exact absurd hempty hne.ne_empty

/-- A call of `occurrences` lists the instants up to the last one that it lists. -/
theorem occurrencesLoop_listed (h : Successor S schedule) (through : Time) (room : Nat)
    (after : Time) :
    Enumerates S
      (Ioc after ((occurrencesLoop schedule through room (schedule after)).getLastD after))
      (occurrencesLoop schedule through room (schedule after)) := by
  induction room generalizing after with
  | zero => exact h.empty (h.lt after)
  | succ room ih =>
      rw [occurrencesLoop]
      split
      · have hrest := ih (schedule after)
        rw [List.getLastD_cons]
        refine (h.single after).append hrest (h.lt after).le (hrest.le_getLastD ?_)
        exact fun x hx => hx.1.le
      · exact h.empty (h.lt after)

theorem occurrencesLoop_le {through : Time} {room : Nat} {next x : Time}
    (hx : x ∈ occurrencesLoop schedule through room next) : x ≤ through := by
  induction room generalizing next with
  | zero => cases hx
  | succ room ih =>
      rw [occurrencesLoop] at hx
      split at hx
      · next hle =>
        rcases List.mem_cons.mp hx with rfl | hrest
        · exact hle
        · exact ih hrest
      · cases hx

/-- The last instant of a call of `occurrences` is the greatest one of its window exactly if the
window has no more instants than the limit. -/
theorem firesLatest_iff (h : Successor S schedule) (after through : Time) (limit : Int) :
    FiresLatest (S ∩ Ioc after through) (latestOnly (occurrences schedule after through limit)) ↔
      (S ∩ Ioc after through).ncard ≤ catchUpLimit limit := by
  have hwhole : (occurrences schedule after through limit).length < catchUpLimit limit →
      Enumerates S (Ioc after through) (occurrences schedule after through limit) :=
    occurrences_enumerates h
  have hlisted : Enumerates S (Ioc after ((occurrences schedule after through limit).getLastD after))
      (occurrences schedule after through limit) := occurrencesLoop_listed h through _ after
  have hlength : (occurrences schedule after through limit).length ≤ catchUpLimit limit :=
    occurrencesLoop_length_le _ _ _ _
  have hle : ∀ x ∈ occurrences schedule after through limit, x ≤ through :=
    fun x hx => occurrencesLoop_le hx
  generalize occurrences schedule after through limit = due at hwhole hlisted hlength hle ⊢
  by_cases hnil : due = []
  · have hall := hwhole (hnil ▸ catchUpLimit_pos limit)
    refine iff_of_true ⟨fun at' hgreatest => ?_, fun _ => by rw [hnil, latestOnly_nil]⟩ ?_
    · have hmem := (hall.mem_iff at').mpr hgreatest.1
      rw [hnil] at hmem
      cases hmem
    · rw [hall.ncard]
      exact hlength
  · have hfinite : (S ∩ Ioc after through).Finite := (finite_Ioc after through).inter_of_right S
    have hmem := List.getLast_mem hnil
    rw [List.getLastD_eq_getLast?, List.getLast?_eq_some_getLast hnil, Option.getD_some] at hlisted
    have hne : (S ∩ Ioc after through).Nonempty := by
      obtain ⟨hS, hwindow⟩ := (hlisted.mem_iff _).mp hmem
      exact ⟨_, hS, hwindow.1, hle _ hmem⟩
    rw [latestOnly_eq hnil, firesLatest_singleton_iff hfinite hne,
      hlisted.isGreatest_iff hnil (hle _ hmem) hfinite]
    constructor
    · intro hlong
      exact hlong.trans hlength
    · intro hcard
      -- a list that is shorter than the limit is the whole window
      rcases hlength.lt_or_eq with hshort | hfull
      · exact (hwhole hshort).ncard.le
      · exact hfull ▸ hcard

/-- For a calendar schedule, `initialize` with `MisfireLatest` fires exactly the greatest instant of
its lookback, and a due `tick` with `MisfireLatest` or `MisfireSkip` the greatest one since the
stored instant, if and only if these windows have no more instants than the catch-up limit. -/
theorem latest_fired_iff {s : Scheduler} {d : Definition} (hd : d ∈ s.definitions)
    (hS : Successor S d.schedule) (now : Time) :
    (0 < d.options.lookback → d.options.misfire = .latest →
      (FiresLatest (S ∩ Ioc (now - d.options.lookback) now)
          (instants d.name (s.initializeAt now).1) ↔
        (S ∩ Ioc (now - d.options.lookback) now).ncard ≤ catchUpLimit d.options.maxCatchUp)) ∧
    (d.options.misfire = .latest ∨ d.options.misfire = .skip → s.nextOf d.name ≤ now →
      (FiresLatest (S ∩ Icc (s.nextOf d.name) now) (instants d.name (s.tick now).1) ↔
        (S ∩ Icc (s.nextOf d.name) now).ncard ≤ catchUpLimit d.options.maxCatchUp)) := by
  constructor
  · intro hlookback hpolicy
    have hfired : instants d.name (s.initializeAt now).1 = latestOnly
        (occurrences d.schedule (now - d.options.lookback) now d.options.maxCatchUp) := by
      rw [(Scheduler.initializeAt_own hd now).1]
      simp [Definition.recovered, hlookback, hpolicy]
    rw [hfired]
    exact firesLatest_iff hS _ now _
  · intro hpolicy hdue
    have hfired : instants d.name (s.tick now).1 = latestOnly
        (occurrences d.schedule (s.nextOf d.name - 1) now d.options.maxCatchUp) := by
      rw [(Scheduler.tick_due hd hdue).1]
      rcases hpolicy with hpolicy | hpolicy <;> simp [Definition.due, hpolicy]
    have hwindow : Icc (s.nextOf d.name) now = Ioc (s.nextOf d.name - 1) now := by
      ext x
      exact and_congr_left fun _ => Int.sub_one_lt_iff.symm
    rw [hfired, hwindow]
    exact firesLatest_iff hS _ now _

/-- An hourly definition that fires the latest instant. -/
def latestReport (lookback : Duration) (maxCatchUp : Int) : Definition :=
  ⟨"report", hourly, ⟨.latest, lookback, maxCatchUp⟩⟩

/-- The scheduler with that definition. -/
def latestScheduler (lookback : Duration) (maxCatchUp : Int) : Scheduler :=
  ⟨[latestReport lookback maxCatchUp], ∅, by simp⟩

theorem latest_fired_iff_of_report :
    FiresLatest ({t | hour ∣ t} ∩ Ioc (5 * hour + 7 - 2 * hour) (5 * hour + 7))
        (instants "report" ((latestScheduler (2 * hour) 10).initializeAt (5 * hour + 7)).1) ∧
      FiresLatest ({t | hour ∣ t} ∩ Icc (6 * hour) (9 * hour + 1))
        (instants "report" (((latestScheduler (2 * hour) 10).run (5 * hour + 7) []).2.tick
          (9 * hour + 1)).1) := by
  have hmem : latestReport (2 * hour) 10 ∈ (latestScheduler (2 * hour) 10).definitions :=
    List.mem_singleton.mpr rfl
  constructor
  · have hfired := (latest_fired_iff hmem hourly_successor (5 * hour + 7)).1 (by decide) rfl
    have hlisted : Enumerates {t | hour ∣ t} (Ioc (5 * hour + 7 - 2 * hour) (5 * hour + 7))
        (occurrences hourly (5 * hour + 7 - 2 * hour) (5 * hour + 7) 10) :=
      occurrences_enumerates hourly_successor (by decide)
    exact hfired.mpr (hlisted.ncard.le.trans (by decide))
  · have hfired := (latest_fired_iff (s := ((latestScheduler (2 * hour) 10).run (5 * hour + 7) []).2)
      hmem hourly_successor (9 * hour + 1)).2 (Or.inl rfl) (by decide)
    have hlisted : Enumerates {t | hour ∣ t} (Icc (6 * hour) (9 * hour + 1))
        (occurrences hourly (6 * hour - 1) (9 * hour + 1) 10) :=
      (occurrences_enumerates hourly_successor (by decide)).congr fun x _ =>
        and_congr_left fun _ => Int.sub_one_lt_iff.symm
    exact hfired.mpr (hlisted.ncard.le.trans (by decide))

/-- Five hours back with room for two instants: the second one is fired, not the fifth. -/
theorem earlier_instant_fired :
    instants "report" ((latestScheduler (5 * hour) 2).initializeAt (5 * hour + 7)).1 = [2 * hour] ∧
      IsGreatest ({t | hour ∣ t} ∩ Ioc (5 * hour + 7 - 5 * hour) (5 * hour + 7)) (5 * hour) ∧
      instants "report" (((latestScheduler (5 * hour) 2).run (5 * hour + 7) []).2.tick
        (9 * hour + 1)).1 = [7 * hour] ∧
      IsGreatest ({t | hour ∣ t} ∩ Icc (6 * hour) (9 * hour + 1)) (9 * hour) := by
  have hbound : ∀ k rest t : Int, rest < hour → hour ∣ t → t ≤ k * hour + rest → t ≤ k * hour := by
    rintro k rest _ hrest ⟨j, rfl⟩ hle
    simp only [hour] at hrest hle ⊢
    omega
  refine ⟨by decide, ⟨⟨dvd_mul_left hour 5, by decide⟩, ?_⟩, by decide,
    ⟨⟨dvd_mul_left hour 9, by decide⟩, ?_⟩⟩
  · exact fun t ht => hbound 5 7 t (by decide) ht.1 ht.2.2
  · exact fun t ht => hbound 9 1 t (by decide) ht.1 ht.2.2

end Ody.Schedule
