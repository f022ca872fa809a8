import SolidTrace.Monitors.LeasedRuns

/-!
# What a save leaves, a run leaves

Everything a run records it records in one transaction that first checks that the Monitor is the
version it loaded. Two writes of the timeouts in a row are made outside it, as a run times out and as
its starting again fails, so they write over a save's. Where those come to no saved Monitor, a save's
states, cursor, timeouts and Notifications stay as it left them, and Logs are skipped only after three
timed-out runs since the Monitor was last armed or ran ok.
-/

namespace SolidTrace.Monitors

open Storage

/-- How many runs timed out since the Monitor was last armed, by a save, a run or a skip, or ran ok. -/
def timeoutsSince : List MatchEvent → ℕ
  | .timedOut :: rest => timeoutsSince rest + 1
  | .failed :: rest => timeoutsSince rest
  | _ => 0

/-- Whether every skip came after three timed-out runs. -/
def SkipsAfterThree : List MatchEvent → Prop
  | [] => True
  | event :: rest => (event = .skipped → timeoutsBeforeSkipping ≤ timeoutsSince rest) ∧
      SkipsAfterThree rest

namespace LeasedSystem

/-- Whether all that runs may change is as the last save left it, until a run of the Monitor as saved
takes the lease. -/
def LeftAsSaved (s : LeasedSystem) : Prop := ∀ left, s.left = some left → s.snapshot = left

/-- Whether a run's timeouts in a row are of the Monitor as it is: a run that writes them is of a
Monitor not saved since, and no other run has changed them since it was loaded, nor before it skips; and
a save that arms writes the 0 over a count, whatever was loaded. -/
def CountsAsLoaded (s : LeasedSystem) : LeaseAction → Prop
  | .timedOut _ => ∀ run ∈ s.run, run.timeoutsInARow + 1 < timeoutsBeforeSkipping →
      s.unchanged run.loaded = true ∧
        s.row.timeoutsInARow = run.loaded.row.timeoutsInARow
  | .noNewestBatch _ => ∀ run ∈ s.run, run.timeoutsInARow ≠ run.loaded.row.timeoutsInARow →
      s.unchanged run.loaded = true ∧
        s.row.timeoutsInARow = run.loaded.row.timeoutsInARow
  | .newestBatch _ => ∀ run ∈ s.run, run.stage.skips = true → s.unchanged run.loaded = true →
      s.row.timeoutsInARow = run.loaded.row.timeoutsInARow
  | .save i saved _ _ _ => ∀ loaded ∈ s.loads[i]?, arms loaded saved.forgetTheBaseline = true →
      loaded.row.timeoutsInARow = 0 → s.row.timeoutsInARow = 0
  | _ => True

end LeasedSystem

section Recording

variable {toJson : List (String × Cell) → String} {s t : MonitorSystem} {run : RunGoing}
variable {current : LogMonitor × ℤ}

/-- A run of a Monitor saved meanwhile records that it changed nothing. -/
theorem record_changed (hmonitor : s.monitor = some current) (hsaved : current.2 ≠ run.version)
    (write : MonitorSystem → Option MonitorSystem) :
    s.record run write = some (s.finish run.now (some changedDuringRun) none none) := by
  simp [MonitorSystem.record, hmonitor, hsaved]

/-- Recording a run leaves the Monitor, where what it writes does. -/
theorem record_monitor {write : MonitorSystem → Option MonitorSystem}
    (hwrite : ∀ t, write s = some t → t.monitor = s.monitor) (hrecord : s.record run write = some t) :
    t.monitor = s.monitor := by
  unfold MonitorSystem.record at hrecord
  split at hrecord
  · exact congrArg MonitorSystem.monitor (Option.some.inj hrecord).symm
  · split at hrecord
    · rw [← Option.some.inj hrecord]
      rfl
    · exact hwrite t hrecord

/-- A threshold run whose Monitor was saved meanwhile finishes without writing what it found. -/
theorem runThreshold_changed (hmonitor : s.monitor = some current)
    (hsaved : current.2 ≠ run.version) (retentionDays : ℤ) (answer : Answer)
    (baseline : Option Answer) :
    s.runThreshold toJson run retentionDays answer baseline =
      some (s.finish run.now (some changedDuringRun) none none) := by
  unfold MonitorSystem.runThreshold
  split <;> exact record_changed hmonitor hsaved _

/-- A threshold run leaves the Monitor. -/
theorem runThreshold_monitor {retentionDays : ℤ} {answer : Answer} {baseline : Option Answer}
    (hrun : s.runThreshold toJson run retentionDays answer baseline = some t) :
    t.monitor = s.monitor := by
  unfold MonitorSystem.runThreshold at hrun
  split at hrun
  · apply record_monitor _ hrun
    intro t ht
    rw [← Option.some.inj ht]
    rfl
  · apply record_monitor _ hrun
    intro t ht
    obtain ⟨moved, -, hmoved⟩ := Option.bind_eq_some_iff.mp ht
    rw [← Option.some.inj hmoved]
    rfl

/-- A match run whose Monitor was saved meanwhile finishes without writing what it found. -/
theorem runMatch_changed (hmonitor : s.monitor = some current) (hsaved : current.2 ≠ run.version)
    (answer : Except String ℕ) :
    s.runMatch run answer = some (s.finish run.now (some changedDuringRun) none none) := by
  unfold MonitorSystem.runMatch
  split <;> exact record_changed hmonitor hsaved _

/-- A match run leaves the Monitor. -/
theorem runMatch_monitor {answer : Except String ℕ} (hrun : s.runMatch run answer = some t) :
    t.monitor = s.monitor := by
  unfold MonitorSystem.runMatch at hrun
  split at hrun
  all_goals
    apply record_monitor _ hrun
    intro t ht
    rw [← Option.some.inj ht]
    rfl

/-- A run recorded with an error is not ok. -/
theorem outcome_finish (now : ℤ) (error : String) (firing matched : Option ℕ) :
    LeasedSystem.outcome s (s.finish now (some error) firing matched) = .failed := by
  simp [LeasedSystem.outcome, MonitorSystem.finish]

/-- Linking Integrations leaves the Monitor. -/
theorem setIntegrations_monitor (m : LogMonitor) (version : ℤ) (integrations : List ℕ) :
    (s.setIntegrations m version integrations).monitor = s.monitor := by
  have hfold : ∀ (removed : List ℕ) (s : MonitorSystem),
      (removed.foldl (fun s integration => s.resolveGroupsFor m version integration) s).monitor =
        s.monitor := by
    intro removed
    induction removed with
    | nil => exact fun _ => rfl
    | cons integration rest ih => exact fun s => ih (s.resolveGroupsFor m version integration)
  exact hfold _ s

/-- A save that changes something raises the version. -/
theorem save_monitor (was saved : LogMonitor) (version updatedAt : ℤ)
    (integrations : Option (List ℕ)) (hsaved : saved ≠ was) :
    (s.save current was version saved updatedAt integrations).monitor =
      some (mergeSettings was saved current.1, updatedAt) := by
  unfold MonitorSystem.save
  simp only [if_neg hsaved]
  split
  · rw [setIntegrations_monitor]
    split <;> rfl
  · split <;> rfl

end Recording

namespace LeasedSystem

variable {toJson : List (String × Cell) → String} {s t : LeasedSystem} {run : LeasedRun}
variable {current : LogMonitor × ℤ}

/-- A Monitor loaded from this one as it is or as it was before a save. -/
def Precedes (loaded : Loaded) (current : LogMonitor × ℤ) : Prop :=
  loaded.version ≤ current.2 ∧ (loaded.version = current.2 → loaded.monitor = current.1)

/-- A run's timeouts in a row are what it loaded, or one more, which the history has. -/
def RunCounted (s : LeasedSystem) (current : LogMonitor × ℤ) (run : LeasedRun) : Prop :=
  match run.stage with
  | .reading => run.timeoutsInARow = run.loaded.row.timeoutsInARow
  | .startingAgain skipping _ => run.loaded.monitor.kind = .match ∧
      (skipping = true → timeoutsBeforeSkipping ≤ run.timeoutsInARow) ∧
      (run.timeoutsInARow = run.loaded.row.timeoutsInARow ∨
        run.timeoutsInARow = run.loaded.row.timeoutsInARow + 1 ∧
          (run.loaded.version = current.2 →
            s.row.timeoutsInARow + 1 ≤ timeoutsSince s.history))
  | .failing _ => True

/-- What every step keeps. -/
structure Inv (s : LeasedSystem) (current : LogMonitor × ℤ) : Prop where
  monitor : s.system.monitor = some current
  loads : ∀ loaded ∈ s.loads, Precedes loaded current
  run : ∀ run, s.run = some run → Precedes run.loaded current ∧ s.RunCounted current run
  left : ∀ left, s.left = some left → s.snapshot = left ∧
    ∀ run, s.run = some run → run.loaded.version ≠ current.2
  counted : current.1.kind = .match → s.row.timeoutsInARow ≤ timeoutsSince s.history
  skips : SkipsAfterThree s.history

/-- A Monitor is unchanged when it has the version that was loaded. -/
theorem unchanged_iff (hmonitor : s.system.monitor = some current) (loaded : Loaded) :
    s.unchanged loaded = true ↔ loaded.version = current.2 := by
  simp [unchanged, hmonitor, eq_comm]

/-- Loading a run keeps the invariant. -/
theorem Inv.load (hinv : s.Inv current) (hstep : s.load = some t) : t.Inv current := by
  unfold LeasedSystem.load at hstep
  rw [hinv.monitor] at hstep
  obtain rfl := Option.some.inj hstep
  refine ⟨hinv.monitor, ?_, hinv.run, hinv.left, hinv.counted, hinv.skips⟩
  intro loaded hloaded
  cases List.mem_append.mp hloaded with
  | inl hbefore => exact hinv.loads loaded hbefore
  | inr hnew =>
    rw [List.mem_singleton.mp hnew]
    exact ⟨le_refl _, fun _ => rfl⟩

/-- A run that starts has counted no timeout. -/
theorem runCounted_start (loaded : Loaded) (now : ℤ) :
    s.RunCounted current (LeasedRun.start loaded now) := by
  unfold RunCounted LeasedRun.start
  by_cases hkind : loaded.monitor.kind = .threshold
  · simp [hkind]
  · have hmatch : loaded.monitor.kind = .match := by
      cases hother : loaded.monitor.kind <;> simp_all
    simp only [hkind, if_false]
    split_ifs
    · exact ⟨hmatch, fun h => Bool.noConfusion h, Or.inl trivial⟩
    · rename_i htimeouts
      exact ⟨hmatch, fun _ => htimeouts, Or.inl trivial⟩
    · exact trivial

/-- Taking a run keeps the invariant. -/
theorem Inv.take (hinv : s.Inv current) {i : ℕ} {now : ℤ} (hstep : s.take i now = some t) :
    t.Inv current := by
  unfold LeasedSystem.take at hstep
  obtain ⟨loaded, hloaded, htaken⟩ := Option.bind_eq_some_iff.mp hstep
  split at htaken
  · obtain rfl := Option.some.inj htaken
    have hprecedes := hinv.loads loaded (List.mem_of_getElem? hloaded)
    refine ⟨hinv.monitor, hinv.loads, ?_, ?_, hinv.counted, hinv.skips⟩
    · intro run hrun
      obtain rfl := Option.some.inj hrun
      exact ⟨hprecedes, runCounted_start loaded now⟩
    · intro left hleft
      cases hunchanged : s.unchanged loaded with
      | true => simp [hunchanged] at hleft
      | false =>
        simp only [hunchanged, Bool.false_eq_true, if_false, Option.some.injEq] at hleft
        refine ⟨hleft, ?_⟩
        intro run hrun hsame
        obtain rfl := Option.some.inj hrun
        rw [(unchanged_iff hinv.monitor loaded).mpr hsame] at hunchanged
        exact Bool.noConfusion hunchanged
  · simp at htaken

/-- A run that ends keeps what it found before, when its Monitor was saved meanwhile. -/
theorem Inv.endRun (hinv : s.Inv current) (hrun : s.run = some run) {system : MonitorSystem}
    {row : MatchRow} {event : MatchEvent} (hmonitor : system.monitor = s.system.monitor)
    (hsaved : run.loaded.version ≠ current.2 → system.states = s.system.states ∧
      system.notifications = s.system.notifications ∧ row = s.row)
    (hcounted : current.1.kind = .match → row.timeoutsInARow ≤ timeoutsSince (event :: s.history))
    (hskip : event = .skipped → timeoutsBeforeSkipping ≤ timeoutsSince s.history) :
    (s.endRun system row event).Inv current := by
  refine ⟨hmonitor.trans hinv.monitor, hinv.loads, by simp [LeasedSystem.endRun], ?_, hcounted,
    hskip, hinv.skips⟩
  intro left hleft
  obtain ⟨hsnapshot, hother⟩ := hinv.left left hleft
  obtain ⟨hstates, hnotifications, hrow⟩ := hsaved (hother run hrun)
  refine ⟨?_, by simp [LeasedSystem.endRun]⟩
  rw [← hsnapshot]
  simp only [snapshot, LeasedSystem.endRun, hstates, hnotifications, hrow]

/-- A run goes on and changes nothing that is counted. -/
theorem Inv.setStage (hinv : s.Inv current) (hrun : s.run = some run) {next : LeasedRun}
    (hloaded : next.loaded = run.loaded) (hnext : s.RunCounted current next) :
    LeasedSystem.Inv { s with run := some next } current := by
  refine ⟨hinv.monitor, hinv.loads, ?_, ?_, hinv.counted, hinv.skips⟩
  · intro other hother
    obtain rfl := Option.some.inj hother
    rw [hloaded]
    exact ⟨(hinv.run run hrun).1, hnext⟩
  · intro left hleft
    obtain ⟨hsnapshot, hother⟩ := hinv.left left hleft
    refine ⟨hsnapshot, ?_⟩
    intro other hsame
    obtain rfl := Option.some.inj hsame
    rw [hloaded]
    exact hother run hrun

/-- Recording a threshold run keeps the invariant. -/
theorem Inv.readTable (hinv : s.Inv current) (hrun : s.run = some run)
    (hkind : run.loaded.monitor.kind = .threshold) (retentionDays : ℤ) (answer : Answer)
    (baseline : Option Answer) :
    (s.readTable toJson run retentionDays answer baseline).Inv current := by
  have hchanged (hsaved : run.loaded.version ≠ current.2) :=
    @runThreshold_changed toJson s.system run.going current hinv.monitor (Ne.symm hsaved)
      retentionDays answer baseline
  unfold LeasedSystem.readTable
  apply hinv.endRun hrun
  · cases hsystem : s.system.runThreshold toJson run.going retentionDays answer baseline with
    | none => rfl
    | some system => exact runThreshold_monitor hsystem
  · intro hsaved
    rw [hchanged hsaved]
    exact ⟨rfl, rfl, rfl⟩
  · intro hmatch
    have hsaved : run.loaded.version ≠ current.2 := by
      intro hsame
      rw [← (hinv.run run hrun).1.2 hsame, hkind] at hmatch
      exact MonitorKind.noConfusion hmatch
    rw [hchanged hsaved, Option.getD_some, outcome_finish]
    exact hinv.counted hmatch
  · intro hskipped
    unfold outcome at hskipped
    split at hskipped <;> exact MatchEvent.noConfusion hskipped

/-- Reading a match run's Logs keeps the invariant. -/
theorem Inv.readLogs (hinv : s.Inv current) (hrun : s.run = some run) (answer : MatchAnswer) :
    (s.readLogs run answer).Inv current := by
  unfold LeasedSystem.readLogs
  apply hinv.endRun hrun
  · cases hsystem : s.system.runMatch run.going
        (.ok (max answer.total (min answer.logs matchedLogsListed))) with
    | none => rfl
    | some system => exact runMatch_monitor hsystem
  · intro hsaved
    have hunchanged : ¬ s.unchanged run.loaded = true := fun h =>
      hsaved ((unchanged_iff hinv.monitor run.loaded).mp h)
    rw [runMatch_changed hinv.monitor (Ne.symm hsaved)]
    exact ⟨rfl, rfl, if_neg hunchanged⟩
  · intro hmatch
    by_cases hsaved : run.loaded.version = current.2
    · rw [if_pos ((unchanged_iff hinv.monitor run.loaded).mpr hsaved)]
      exact Nat.zero_le _
    · have hunchanged : ¬ s.unchanged run.loaded = true := fun h =>
        hsaved ((unchanged_iff hinv.monitor run.loaded).mp h)
      rw [if_neg hunchanged, runMatch_changed hinv.monitor (Ne.symm hsaved), Option.getD_some,
        outcome_finish]
      exact hinv.counted hmatch
  · intro hskipped
    unfold outcome at hskipped
    split at hskipped <;> exact MatchEvent.noConfusion hskipped

/-- A timeout keeps the invariant, one that skips included. -/
theorem Inv.timedOut (hinv : s.Inv current) (hrun : s.run = some run)
    (hkind : run.loaded.monitor.kind = .match) (hstage : run.stage = .reading) (error : String)
    (hallowed : s.CountsAsLoaded (.timedOut error)) : (s.timedOut run error).Inv current := by
  have hloaded : run.timeoutsInARow = run.loaded.row.timeoutsInARow := by
    have hcounted := (hinv.run run hrun).2
    rw [RunCounted, hstage] at hcounted
    exact hcounted
  unfold LeasedSystem.timedOut
  dsimp only
  split
  · rename_i htimeouts
    obtain ⟨hunchanged, hrow⟩ := hallowed run hrun htimeouts
    have hversion := (unchanged_iff hinv.monitor run.loaded).mp hunchanged
    refine ⟨hinv.monitor, hinv.loads, ?_, ?_, ?_, ?_, hinv.skips⟩
    · intro next hnext
      obtain rfl := Option.some.inj hnext
      exact ⟨(hinv.run run hrun).1, trivial⟩
    · intro left hleft
      exact absurd hversion ((hinv.left left hleft).2 run hrun)
    · intro hmatch
      have hcounted := hinv.counted hmatch
      change run.timeoutsInARow + 1 ≤ timeoutsSince s.history + 1
      omega
    · exact fun h => MatchEvent.noConfusion h
  · rename_i htimeouts
    refine ⟨hinv.monitor, hinv.loads, ?_, ?_, ?_, ?_, hinv.skips⟩
    · intro next hnext
      obtain rfl := Option.some.inj hnext
      refine ⟨(hinv.run run hrun).1, hkind, fun _ => Nat.le_of_not_lt htimeouts, Or.inr ⟨?_, ?_⟩⟩
      · exact congrArg (· + 1) hloaded
      · intro hversion
        have hmatch : current.1.kind = .match := by
          rw [← (hinv.run run hrun).1.2 hversion]
          exact hkind
        exact Nat.succ_le_succ (hinv.counted hmatch)
    · intro left hleft
      obtain ⟨hsnapshot, hother⟩ := hinv.left left hleft
      refine ⟨hsnapshot, ?_⟩
      intro next hnext
      obtain rfl := Option.some.inj hnext
      exact hother run hrun
    · intro hmatch
      exact (hinv.counted hmatch).trans (Nat.le_succ _)
    · exact fun h => MatchEvent.noConfusion h

/-- Starting again at the newest batch keeps the invariant, on the condition of the step. -/
theorem Inv.newestBatch (hinv : s.Inv current) (hrun : s.run = some run) {skipping : Bool}
    {error : Option String} (hstage : run.stage = .startingAgain skipping error) (cursor : UUID)
    (hallowed : s.CountsAsLoaded (.newestBatch cursor)) :
    (s.newestBatch run skipping error cursor).Inv current := by
  have hcounted := (hinv.run run hrun).2
  rw [RunCounted, hstage] at hcounted
  obtain ⟨hkind, hskips, hloaded⟩ := hcounted
  have hmonitor : ((s.system.record run.going fun system =>
      some (system.finish run.now (LeasedRun.startedAgainNote error) none (some 0))).getD
        s.system).monitor = s.system.monitor := by
    cases hsystem : s.system.record run.going fun system =>
        some (system.finish run.now (LeasedRun.startedAgainNote error) none (some 0)) with
    | none => rfl
    | some system =>
      apply record_monitor _ hsystem
      intro t ht
      rw [← Option.some.inj ht]
      rfl
  unfold LeasedSystem.newestBatch
  dsimp only
  split
  · rename_i hunchanged
    have hversion := (unchanged_iff hinv.monitor run.loaded).mp hunchanged
    apply hinv.endRun hrun hmonitor
    · exact fun hsaved => absurd hversion hsaved
    · exact fun _ => Nat.zero_le _
    · intro hskipped
      have hskipping : skipping = true := by
        cases skipping
        · exact MatchEvent.noConfusion hskipped
        · rfl
      subst hskipping
      have hrow := hallowed run hrun (by rw [hstage, RunStage.skips]) hunchanged
      have hmatch : current.1.kind = .match := by
        rw [← (hinv.run run hrun).1.2 hversion]
        exact hkind
      have hcount := hinv.counted hmatch
      have hthree := hskips rfl
      cases hloaded with
      | inl hsame => omega
      | inr hmore =>
        have htimedOut := hmore.2 hversion
        omega
  · rename_i hunchanged
    have hsaved : run.loaded.version ≠ current.2 := fun h =>
      hunchanged ((unchanged_iff hinv.monitor run.loaded).mpr h)
    apply hinv.endRun hrun hmonitor
    · intro _
      rw [record_changed hinv.monitor (Ne.symm hsaved)]
      exact ⟨rfl, rfl, rfl⟩
    · exact fun hmatch => hinv.counted hmatch
    · exact fun h => MatchEvent.noConfusion h

/-- Starting again where there is no batch keeps the invariant. -/
theorem Inv.noNewestBatch (hinv : s.Inv current) (hrun : s.run = some run) {skipping : Bool}
    {error : Option String} (hstage : run.stage = .startingAgain skipping error) (why : String)
    (hallowed : s.CountsAsLoaded (.noNewestBatch why)) :
    (s.noNewestBatch run error why).Inv current := by
  have hcounted := (hinv.run run hrun).2
  rw [RunCounted, hstage] at hcounted
  obtain ⟨-, -, hloaded⟩ := hcounted
  unfold LeasedSystem.noNewestBatch
  dsimp only
  by_cases hsame : run.timeoutsInARow = run.loaded.row.timeoutsInARow
  · rw [if_pos hsame]
    exact hinv.setStage hrun rfl trivial
  · obtain ⟨hunchanged, hrow⟩ := hallowed run hrun hsame
    have hversion := (unchanged_iff hinv.monitor run.loaded).mp hunchanged
    rw [if_neg hsame]
    refine ⟨hinv.monitor, hinv.loads, ?_, ?_, ?_, hinv.skips⟩
    · intro next hnext
      obtain rfl := Option.some.inj hnext
      exact ⟨(hinv.run run hrun).1, trivial⟩
    · intro left hleft
      exact absurd hversion ((hinv.left left hleft).2 run hrun)
    · intro _
      cases hloaded with
      | inl hsame' => exact absurd hsame' hsame
      | inr hmore =>
        have htimedOut := hmore.2 hversion
        change run.timeoutsInARow ≤ timeoutsSince s.history
        omega

/-- Recording an error keeps the invariant. -/
theorem Inv.recordError (hinv : s.Inv current) (hrun : s.run = some run) (error : String) :
    (s.recordError run error).Inv current := by
  unfold LeasedSystem.recordError
  apply hinv.endRun hrun
  · cases hsystem : s.system.record run.going fun system =>
        some (system.finish run.now (some error) none none) with
    | none => rfl
    | some system =>
      apply record_monitor _ hsystem
      intro t ht
      rw [← Option.some.inj ht]
      rfl
  · intro hsaved
    rw [record_changed hinv.monitor (Ne.symm hsaved)]
    exact ⟨rfl, rfl, rfl⟩
  · exact fun hmatch => hinv.counted hmatch
  · exact fun h => MatchEvent.noConfusion h

/-- A Match monitor saved from another kind, armed or not, was of that kind as it was loaded. -/
theorem kind_of_mergeSettings {was saved current : LogMonitor} (hcurrent : current.kind ≠ .match)
    (hmatch : (mergeSettings was saved current).kind = .match) :
    saved.kind = .match ∧ was.kind ≠ saved.kind := by
  unfold mergeSettings at hmatch
  dsimp only at hmatch
  split at hmatch
  · exact absurd hmatch hcurrent
  · rename_i hkind
    exact ⟨hmatch, hkind⟩

/-- An armed row has no timeouts, unless the save that arms it writes over a count it didn't load. -/
theorem merge_arm {loaded current : MatchRow} {cursor : UUID} {now : ℤ}
    (hzero : loaded.timeoutsInARow = 0 → current.timeoutsInARow = 0) :
    (loaded.merge (loaded.arm cursor now) current).timeoutsInARow = 0 := by
  unfold MatchRow.merge MatchRow.arm
  dsimp only
  split
  · rename_i hsame
    exact hzero hsame
  · rfl

/-- A save keeps the invariant, as runs loaded before it have another version. -/
theorem Inv.save (hinv : s.Inv current) {i : ℕ} {saved : LogMonitor}
    {integrations : Option (List ℕ)} {cursor : UUID} {now : ℤ}
    (hallowed : s.CountsAsLoaded (.save i saved integrations cursor now))
    (hstep : s.save i saved integrations cursor now = some t) : ∃ current, t.Inv current := by
  unfold LeasedSystem.save at hstep
  obtain ⟨loaded, hloaded, hwith⟩ := Option.bind_eq_some_iff.mp hstep
  obtain ⟨other, hother, hsave⟩ := Option.bind_eq_some_iff.mp hwith
  rw [hinv.monitor] at hother
  obtain rfl := Option.some.inj hother
  dsimp only at hsave
  split at hsave
  · rename_i hvalid
    simp only [Bool.and_eq_true, decide_eq_true_eq] at hvalid
    obtain rfl := Option.some.inj hsave
    have hmonitor := @save_monitor s.system current loaded.monitor saved.forgetTheBaseline
      loaded.version (current.2 + 1) integrations hvalid.2
    have holder (older : Loaded) (hprecedes : Precedes older current) :
        Precedes older (mergeSettings loaded.monitor saved.forgetTheBaseline current.1,
          current.2 + 1) := by
      have hle := hprecedes.1
      refine ⟨by dsimp only; omega, ?_⟩
      intro hsame
      dsimp only at hsame
      omega
    have hrunVersion (run : LeasedRun) (hrun : s.run = some run) :
        run.loaded.version ≠ current.2 + 1 := by
      have hle := (hinv.run run hrun).1.1
      omega
    refine ⟨_, hmonitor, fun older holds => holder older (hinv.loads older holds), ?_, ?_, ?_, ?_⟩
    · intro run hrun
      refine ⟨holder run.loaded (hinv.run run hrun).1, ?_⟩
      have hcounted := (hinv.run run hrun).2
      unfold RunCounted at hcounted ⊢
      split at hcounted
      · exact hcounted
      · refine ⟨hcounted.1, hcounted.2.1, ?_⟩
        cases hcounted.2.2 with
        | inl hsame => exact Or.inl hsame
        | inr hmore => exact Or.inr ⟨hmore.1, fun hsame => absurd hsame (hrunVersion run hrun)⟩
      · trivial
    · intro left hleft
      exact ⟨Option.some.inj hleft, hrunVersion⟩
    · intro hmatch
      dsimp only
      by_cases harms : arms loaded saved.forgetTheBaseline = true
      · have hzero := hallowed loaded hloaded harms
        rw [if_pos harms, merge_arm hzero]
        exact Nat.zero_le _
      · rw [if_neg harms, if_neg harms]
        apply hinv.counted
        by_contra hother
        obtain ⟨hkind, hchanged⟩ := kind_of_mergeSettings hother hmatch
        exact harms (by simp [arms, queryCheckNeeded, hkind, hkind ▸ hchanged])
    · dsimp only
      split
      · exact ⟨fun h => MatchEvent.noConfusion h, hinv.skips⟩
      · exact hinv.skips
  · simp at hsave

/-- Every step that meets the condition keeps the invariant. -/
theorem Inv.step (hinv : s.Inv current) {a : LeaseAction} (hallowed : s.CountsAsLoaded a)
    (hstep : s.step toJson a = some t) : ∃ current, t.Inv current := by
  cases a with
  | load => exact ⟨current, hinv.load hstep⟩
  | take i now => exact ⟨current, hinv.take hstep⟩
  | save i saved integrations cursor now => exact hinv.save hallowed hstep
  | die =>
    obtain rfl := Option.some.inj hstep
    refine ⟨current, hinv.monitor, hinv.loads, by simp, ?_, hinv.counted, hinv.skips⟩
    exact fun left hleft => ⟨(hinv.left left hleft).1, by simp⟩
  | readTable retentionDays answer baseline =>
    obtain ⟨run, hrun, hread⟩ := Option.bind_eq_some_iff.mp hstep
    split at hread
    · rename_i hkind hstage
      obtain rfl := Option.some.inj hread
      exact ⟨current, hinv.readTable hrun hkind retentionDays answer baseline⟩
    · simp at hread
  | readLogs answer =>
    obtain ⟨run, hrun, hread⟩ := Option.bind_eq_some_iff.mp hstep
    split at hread
    · obtain rfl := Option.some.inj hread
      exact ⟨current, hinv.readLogs hrun answer⟩
    · simp at hread
  | rejected error =>
    obtain ⟨run, hrun, hread⟩ := Option.bind_eq_some_iff.mp hstep
    split at hread
    · obtain rfl := Option.some.inj hread
      exact ⟨current, hinv.setStage hrun rfl trivial⟩
    · simp at hread
  | timedOut error =>
    obtain ⟨run, hrun, hread⟩ := Option.bind_eq_some_iff.mp hstep
    split at hread
    · rename_i hkind hstage
      obtain rfl := Option.some.inj hread
      exact ⟨current, hinv.timedOut hrun hkind hstage error hallowed⟩
    · simp at hread
  | newestBatch cursor =>
    obtain ⟨run, hrun, hread⟩ := Option.bind_eq_some_iff.mp hstep
    split at hread
    · rename_i hstage
      obtain rfl := Option.some.inj hread
      exact ⟨current, hinv.newestBatch hrun hstage cursor hallowed⟩
    · simp at hread
  | noNewestBatch why =>
    obtain ⟨run, hrun, hread⟩ := Option.bind_eq_some_iff.mp hstep
    split at hread
    · rename_i hstage
      obtain rfl := Option.some.inj hread
      exact ⟨current, hinv.noNewestBatch hrun hstage why hallowed⟩
    · simp at hread
  | recordError =>
    obtain ⟨run, hrun, hread⟩ := Option.bind_eq_some_iff.mp hstep
    split at hread
    · obtain rfl := Option.some.inj hread
      exact ⟨current, hinv.recordError hrun _⟩
    · simp at hread

/-- The invariant holds of a Monitor that was just created. -/
theorem Inv.created (m : LogMonitor) (integrations : List ℕ) (active : ℕ → Bool) (cursor : UUID)
    (now : ℤ) : (created m integrations active cursor now).Inv (m, 0) := by
  refine ⟨rfl, by simp [LeasedSystem.created], by simp [LeasedSystem.created],
    by simp [LeasedSystem.created], ?_, ?_⟩
  · intro hmatch
    simp [LeasedSystem.created, show m.kind = .match from hmatch]
  · unfold LeasedSystem.created
    dsimp only
    split
    · exact ⟨fun h => MatchEvent.noConfusion h, trivial⟩
    · trivial

/-- Where every run's timeouts are of the Monitor as loaded, what a save leaves stays as it left it
until a run of the Monitor as saved takes the lease, and Logs are skipped only after three timed-out runs
since the Monitor was last armed or last ran ok. -/
theorem saves_leftAsSaved (toJson : List (String × Cell) → String) (m : LogMonitor)
    (integrations : List ℕ) (active : ℕ → Bool) (cursor : UUID) (now : ℤ) (s : LeasedSystem)
    (hrun : Transition.Reaches (LeasedSystem.step toJson) CountsAsLoaded
      (LeasedSystem.created m integrations active cursor now) s) :
    s.LeftAsSaved ∧ SkipsAfterThree s.history := by
  have hinit : ∃ current, (LeasedSystem.created m integrations active cursor now).Inv current :=
    ⟨(m, 0), Inv.created m integrations active cursor now⟩
  have hstep (s : LeasedSystem) (a : LeaseAction) (t : LeasedSystem)
      (hinv : ∃ current, s.Inv current) (hallowed : s.CountsAsLoaded a)
      (hstep : s.step toJson a = some t) : ∃ current, t.Inv current := by
    obtain ⟨current, hinv⟩ := hinv
    exact hinv.step hallowed hstep
  obtain ⟨current, hinv⟩ := hrun.invariant hinit hstep
  exact ⟨fun left hleft => (hinv.left left hleft).1, hinv.skips⟩

section Rearmed

instance (s : LeasedSystem) (a : LeaseAction) : Decidable (s.CountsAsLoaded a) := by
  cases a <;> unfold CountsAsLoaded <;> infer_instance

instance (s : LeasedSystem) : Decidable s.LeftAsSaved :=
  decidable_of_iff (s.left.all fun left => s.snapshot = left) <| by
    cases h : s.left <;> simp [LeftAsSaved, h]

instance decidableSkips : (history : List MatchEvent) → Decidable (SkipsAfterThree history)
  | [] => isTrue trivial
  | event :: rest =>
    have := decidableSkips rest
    inferInstanceAs (Decidable ((event = .skipped → timeoutsBeforeSkipping ≤ timeoutsSince rest) ∧
      SkipsAfterThree rest))

/-- Reads the Logs of one Project. -/
def paymentErrors : LogMonitor where
  name := "Payment errors"
  kind := .match
  compare := .value
  operator := none
  threshold := none
  baseline := none
  minimum := none
  query := "where level == \"error\""
  project := 7
  rangeMinutes := 5
  intervalMinutes := 1
  notifyByGroup := false
  alertOnNoData := false
  disabledAt := none

/-- Three runs time out, so the third skips. While a fourth reads, the Monitor is given another Project,
and the run then finds Logs of the first one. -/
def skipsThenRearmed : List LeaseAction :=
  [.load, .take 0 60, .timedOut "stopped", .recordError, .load, .take 1 120, .timedOut "stopped",
    .recordError, .load, .take 2 180, .timedOut "stopped", .newestBatch UUID.Nil, .load, .take 3 240,
    .save 3 { paymentErrors with project := 8 } none UUID.Nil 245, .readLogs ⟨UUID.Nil, 4, 4⟩]

/-- The run that skips and is armed again after is one. -/
private theorem skipsThenRearmed_runs : (Transition.run (LeasedSystem.step fun _ => "")
    CountsAsLoaded (created paymentErrors [1] (fun _ => true) UUID.Nil 0)
    skipsThenRearmed).isSome = true := by
  decide +kernel

/-- A Monitor that was armed again after it skipped is as it was saved. -/
theorem saves_leftAsSaved_skipsThenRearmed : ∃ s : LeasedSystem,
    Transition.run (LeasedSystem.step fun _ => "") CountsAsLoaded
      (created paymentErrors [1] (fun _ => true) UUID.Nil 0) skipsThenRearmed = some s ∧
      s.left.isSome = true ∧ s.history.contains .skipped = true ∧
      s.LeftAsSaved ∧ SkipsAfterThree s.history := by
  have hrun := (Option.some_get skipsThenRearmed_runs).symm
  exact ⟨_, hrun, by decide +kernel, by decide +kernel, saves_leftAsSaved (fun _ => "")
    paymentErrors [1] (fun _ => true) UUID.Nil 0 _ (Transition.reaches_of_run hrun)⟩

/-- Two runs time out. While a third reads, the Monitor is given another Project, which arms it; the
run then times out, too, and can't start again. -/
def rearmedWhileReading : List LeaseAction :=
  [.load, .take 0 60, .timedOut "stopped", .recordError, .load, .take 1 120, .timedOut "stopped",
    .recordError, .load, .take 2 180, .save 2 { paymentErrors with project := 8 } none UUID.Nil 185,
    .timedOut "stopped", .noNewestBatch "unavailable"]

/-- The run's count is written over the save's, so the next run skips the new Project's Logs. -/
def rearmedThenSkips : List LeaseAction :=
  rearmedWhileReading ++ [.recordError, .load, .take 3 240, .newestBatch UUID.Nil]

/-- The run that is armed again while it reads is one. -/
private theorem rearmedWhileReading_runs : (Transition.run (LeasedSystem.step fun _ => "")
    (fun _ _ => True) (created paymentErrors [1] (fun _ => true) UUID.Nil 0)
    rearmedWhileReading).isSome = true := by
  decide +kernel

/-- The run that is armed again and skips then is one. -/
private theorem rearmedThenSkips_runs : (Transition.run (LeasedSystem.step fun _ => "")
    (fun _ _ => True) (created paymentErrors [1] (fun _ => true) UUID.Nil 0)
    rearmedThenSkips).isSome = true := by
  decide +kernel

/-- What was counted before the Monitor was armed again is written over the save. -/
theorem rearmed_countWritten :
    (∃ s, Transition.run (LeasedSystem.step fun _ => "") (fun _ _ => True)
        (created paymentErrors [1] (fun _ => true) UUID.Nil 0) rearmedWhileReading = some s ∧
      ¬ s.LeftAsSaved) ∧
    ∃ s, Transition.run (LeasedSystem.step fun _ => "") (fun _ _ => True)
        (created paymentErrors [1] (fun _ => true) UUID.Nil 0) rearmedThenSkips = some s ∧
      ¬ SkipsAfterThree s.history := by
  constructor
  · exact ⟨_, (Option.some_get rearmedWhileReading_runs).symm, by decide +kernel⟩
  · exact ⟨_, (Option.some_get rearmedThenSkips_runs).symm, by decide +kernel⟩

end Rearmed

end LeasedSystem

end SolidTrace.Monitors
