import Mathlib.Data.List.Chain
import SolidTrace.Lib.Alternation
import SolidTrace.Lib.Transition
import SolidTrace.Monitors.MonitorStates

/-!
# Firing and resolved alternate

Every transaction that changes a group's state tells the active Integrations exactly what the change
owes: nothing where the group fires as before, and otherwise one row. So for an Integration that is
active and linked throughout, the rows of each group alternate, and the last of them is where the
group stands.
-/

namespace SolidTrace.Monitors

open Alternation Transition

/-- Whether a group has a state that fires. -/
def firingOf (states : List MonitorState) (key : String) : Bool :=
  states.any fun state => state.groupKey = key && state.status = .firing

/-- Firing as up, resolved as down. -/
def NotificationKind.signal : NotificationKind → Option Bool
  | .monitorFiring => some true
  | .monitorResolved => some false
  | .monitorMatched => none

/-- The signals of changes to one group. -/
def signalsOf (changes : List GroupChange) (key : String) : List Bool :=
  (changes.filter fun change => change.groupKey = key).filterMap fun change => change.kind.signal

/-- The signals to one Integration about one group. -/
def MonitorSystem.signalsFor (s : MonitorSystem) (integration : ℕ) (key : String) : List Bool :=
  signalsOf ((s.notifications.filter fun n => n.integration = integration).map Notification.change)
    key

/-- No two states are of one group. -/
def Keyed (states : List MonitorState) : Prop := (states.map MonitorState.groupKey).Nodup

section Lists

/-- Where keys differ, the entries of a key are the first of them. -/
theorem filter_key_eq_find? {α β : Type*} [DecidableEq β] (key : α → β) (l : List α)
    (hl : (l.map key).Nodup) (k : β) :
    l.filter (fun a => key a = k) = (l.find? fun a => key a = k).toList := by
  induction l with
  | nil => rfl
  | cons a rest ih =>
    rw [List.map_cons, List.nodup_cons] at hl
    by_cases ha : key a = k
    · have hnone : rest.filter (fun a => key a = k) = [] := by
        refine List.filter_eq_nil_iff.mpr fun b hb => ?_
        have hne : key b ≠ k := fun hk => hl.1 (ha ▸ hk ▸ List.mem_map_of_mem hb)
        simpa using hne
      simp [ha, hnone]
    · simp [ha, ih hl.2]

/-- The signals of two runs of changes are those of each. -/
theorem signalsOf_append (first second : List GroupChange) (key : String) :
    signalsOf (first ++ second) key = signalsOf first key ++ signalsOf second key := by
  rw [signalsOf, List.filter_append, List.filterMap_append]
  rfl

/-- Changes of other groups signal nothing to a group. -/
theorem signalsOf_eq_nil {changes : List GroupChange} {key : String}
    (hchanges : ∀ change ∈ changes, change.groupKey ≠ key) : signalsOf changes key = [] := by
  rw [signalsOf, List.filter_eq_nil_iff.mpr fun change hchange => by simpa using hchanges change hchange]
  rfl

/-- The signals of changes made from entries, each about its own key. -/
theorem signalsOf_filterMap {α : Type*} (entryKey : α → String) (f : α → Option GroupChange)
    (hkey : ∀ a change, f a = some change → change.groupKey = entryKey a) (l : List α)
    (hl : (l.map entryKey).Nodup) (key : String) :
    signalsOf (l.filterMap f) key =
      ((l.find? fun a => entryKey a = key).bind fun a => (f a).bind fun change =>
        change.kind.signal).toList := by
  have hfilter : (l.filterMap f).filter (fun change => change.groupKey = key) =
      (l.filter fun a => entryKey a = key).filterMap f := by
    rw [List.filter_filterMap, List.filterMap_filter]
    refine List.filterMap_congr fun a _ => ?_
    cases hf : f a with
    | none => simp
    | some change => simp [Option.filter, hkey a change hf]
  rw [signalsOf, hfilter, filter_key_eq_find? entryKey l hl]
  cases l.find? fun a => entryKey a = key with
  | none => rfl
  | some a =>
    cases hf : f a with
    | none => simp [hf]
    | some change => cases hsignal : change.kind.signal <;> simp [hf, hsignal]

end Lists

section States

variable {states : List MonitorState}

/-- The state of a group is the one with its key. -/
theorem stateOf_eq_some_iff (hstates : Keyed states) (key : String) (state : MonitorState) :
    stateOf states key = some state ↔ state ∈ states ∧ state.groupKey = key := by
  constructor
  · intro hstate
    exact ⟨List.mem_of_find?_eq_some hstate, by simpa using List.find?_some hstate⟩
  · intro hstate
    have hmem : state ∈ states.filter fun state => state.groupKey = key :=
      List.mem_filter.mpr ⟨hstate.1, by simpa using hstate.2⟩
    rw [filter_key_eq_find? MonitorState.groupKey states hstates] at hmem
    simpa [stateOf] using hmem

/-- A group fires as its state says. -/
theorem firingOf_eq (hstates : Keyed states) (key : String) :
    firingOf states key = (stateOf states key).any fun state => state.status = .firing := by
  rw [Bool.eq_iff_iff, firingOf, List.any_eq_true]
  cases hstate : stateOf states key with
  | none =>
    have hnone := List.find?_eq_none.mp hstate
    constructor
    · intro hfiring
      obtain ⟨state, hmem, hkey⟩ := hfiring
      rw [Bool.and_eq_true] at hkey
      exact absurd hkey.1 (hnone state hmem)
    · intro hfalse
      simp at hfalse
  | some state =>
    obtain ⟨hmem, hkey⟩ := (stateOf_eq_some_iff hstates key state).mp hstate
    constructor
    · intro hfiring
      obtain ⟨other, hother, hof⟩ := hfiring
      simp only [Bool.and_eq_true, decide_eq_true_eq] at hof
      have hsame := (stateOf_eq_some_iff hstates key other).mpr ⟨hother, hof.1⟩
      rw [hstate, Option.some.injEq] at hsame
      simpa [hsame] using hof.2
    · intro hfiring
      exact ⟨state, hmem, by simpa [hkey] using hfiring⟩

/-- A state that is written fires as its row says, and leaves the other groups. -/
theorem firingOf_upsert (row : MonitorState) (key : String) :
    firingOf (upsert states row) key =
      if row.groupKey = key then decide (row.status = .firing) else firingOf states key := by
  rw [upsert]
  split
  · rename_i hany
    by_cases hkey : row.groupKey = key
    · rw [if_pos hkey, Bool.eq_iff_iff, firingOf, List.any_map, List.any_eq_true]
      constructor
      · intro hfiring
        obtain ⟨state, hmem, hof⟩ := hfiring
        simp only [Function.comp_apply, Bool.and_eq_true, decide_eq_true_eq] at hof
        split at hof
        · exact decide_eq_true hof.2
        · rename_i hother
          exact absurd (hof.1.trans hkey.symm) hother
      · intro hfiring
        obtain ⟨state, hmem, hof⟩ := List.any_eq_true.mp hany
        simp only [decide_eq_true_eq] at hof
        refine ⟨state, hmem, ?_⟩
        simp only [Function.comp_apply, hof, if_true, hkey]
        simpa using hfiring
    · rw [if_neg hkey, firingOf, firingOf, List.any_map]
      refine congrArg (fun p => List.any states p) (funext fun state => ?_)
      simp only [Function.comp_apply]
      split
      · rename_i hof
        simp [hkey, hof]
      · rfl
  · rename_i hnone
    have hfresh : ∀ state ∈ states, state.groupKey ≠ row.groupKey := by
      intro state hmem hof
      exact hnone (List.any_eq_true.mpr ⟨state, hmem, by simpa using hof⟩)
    rw [firingOf, List.any_append]
    by_cases hkey : row.groupKey = key
    · have hold : states.any (fun state => state.groupKey = key && state.status = .firing) =
          false := by
        rw [List.any_eq_false]
        intro state hmem
        have hne : state.groupKey ≠ key := hkey ▸ hfresh state hmem
        simp [hne]
      simp [hkey, hold]
    · simp [hkey, firingOf]

/-- Writing a state keeps one state for each key. -/
theorem Keyed.upsert (hstates : Keyed states) (row : MonitorState) : Keyed (upsert states row) := by
  rw [Monitors.upsert]
  split
  · have hsame : (states.map fun state => if state.groupKey = row.groupKey then row else state).map
        MonitorState.groupKey = states.map MonitorState.groupKey := by
      rw [List.map_map]
      refine List.map_congr_left fun state _ => ?_
      simp only [Function.comp_apply]
      split
      · rename_i hof
        exact hof.symm
      · rfl
    rw [Keyed, hsame]
    exact hstates
  · rename_i hnone
    rw [Keyed, List.map_append, List.nodup_append]
    refine ⟨hstates, by simp, ?_⟩
    intro key hkey other hother hsame
    obtain ⟨state, hmem, rfl⟩ := List.mem_map.mp hkey
    rw [List.map_singleton, List.mem_singleton] at hother
    exact hnone (List.any_eq_true.mpr ⟨state, hmem, by simpa using hsame.trans hother⟩)

/-- Writing states keeps one state for each key. -/
theorem Keyed.foldl_upsert (hstates : Keyed states) (rows : List MonitorState) :
    Keyed (rows.foldl Monitors.upsert states) := by
  induction rows generalizing states with
  | nil => exact hstates
  | cons row rest ih => exact ih (hstates.upsert row)

/-- What a group's states say after writes that agree on it. -/
theorem firingOf_foldl_upsert (rows : List MonitorState) (key : String) (firing : Bool)
    (hrows : ∀ row ∈ rows, row.groupKey = key → decide (row.status = .firing) = firing)
    (hsome : (∃ row ∈ rows, row.groupKey = key) ∨ firingOf states key = firing) :
    firingOf (rows.foldl upsert states) key = firing := by
  induction rows generalizing states with
  | nil =>
    rcases hsome with ⟨row, hrow, _⟩ | hsame
    · simp at hrow
    · exact hsame
  | cons row rest ih =>
    refine ih (fun other hother => hrows other (List.mem_cons_of_mem _ hother)) ?_
    rw [firingOf_upsert]
    by_cases hkey : row.groupKey = key
    · exact Or.inr (by rw [if_pos hkey]; exact hrows row List.mem_cons_self hkey)
    · rw [if_neg hkey]
      refine hsome.imp_left fun hex => ?_
      obtain ⟨other, hother, hof⟩ := hex
      rcases List.mem_cons.mp hother with rfl | hother
      · exact absurd hof hkey
      · exact ⟨other, hother, hof⟩

end States

section Moving

variable {m : LogMonitor} {now : ℤ} {found : Found} {states : List MonitorState}

/-- What deciding every group gives, unless a comparison raises. -/
theorem mapM_fires {groups : List (String × Reading)} {decided : List ((String × Reading) × Bool)}
    (hmap : groups.mapM (fun group => (fires m group.2).map fun firing => (group, firing)) =
      some decided) : decided.map Prod.fst = groups := by
  induction groups generalizing decided with
  | nil =>
    obtain rfl := Option.some.inj hmap
    rfl
  | cons group rest ih =>
    simp only [List.mapM_cons, Option.bind_eq_bind, Option.bind_eq_some_iff, Option.map_eq_some_iff]
      at hmap
    obtain ⟨_, ⟨firing, _, rfl⟩, others, hothers, hdecided⟩ := hmap
    obtain rfl := Option.some.inj hdecided
    rw [List.map_cons, ih hothers]

/-- A change is of the group it was made for. -/
theorem groupChange_key {key : String} {reading : Reading} {firing : Bool} {change : GroupChange}
    (hchange : groupChange m found states key reading firing = some change) :
    change.groupKey = key := by
  rw [groupChange] at hchange
  split at hchange
  · simp at hchange
  · rw [← Option.some.inj hchange]

/-- A group's change owes what its states say. -/
theorem groupChange_signal (hstates : Keyed states) (key : String) (reading : Reading)
    (firing : Bool) :
    ((groupChange m found states key reading firing).bind fun change => change.kind.signal).toList =
      owed (firingOf states key) firing := by
  rw [groupChange, ← firingOf_eq hstates, owed]
  by_cases hsame : firing = firingOf states key
  · simp [hsame]
  · cases firing <;> simp [Ne.symm hsame, NotificationKind.signal]

/-- A state that is moved has the group's key, and fires when the group does. -/
theorem movedState_spec {key : String} {reading : Reading} {firing : Bool} {row : MonitorState}
    (hrow : movedState now states key reading firing = some row) :
    row.groupKey = key ∧ decide (row.status = .firing) = firing := by
  have hstatus : decide (Status.of firing = Status.firing) = firing := by cases firing <;> rfl
  rw [movedState] at hrow
  cases hstate : stateOf states key with
  | none =>
    rw [hstate] at hrow
    obtain rfl := Option.some.inj hrow
    exact ⟨rfl, hstatus⟩
  | some state =>
    simp only [hstate] at hrow
    split at hrow
    · simp at hrow
    · obtain rfl := Option.some.inj hrow
      exact ⟨rfl, hstatus⟩

/-- A group whose state does not change stands where the run found it. -/
theorem firingOf_of_movedState_none (hstates : Keyed states) {key : String} {reading : Reading}
    {firing : Bool} (hnone : movedState now states key reading firing = none) :
    firingOf states key = firing := by
  rw [firingOf_eq hstates]
  cases hstate : stateOf states key with
  | none => simp [movedState, hstate] at hnone
  | some state =>
    simp only [movedState, hstate] at hnone
    split at hnone
    · rename_i hsame
      rw [Option.any_some, hsame.1]
      cases firing <;> rfl
    · simp at hnone

/-- Keeping every state of a group keeps what it says. -/
theorem firingOf_filter {keep : MonitorState → Bool} {key : String}
    (hkeep : ∀ state ∈ states, state.groupKey = key → state.status = .firing → keep state = true) :
    firingOf (states.filter keep) key = firingOf states key := by
  rw [firingOf, firingOf, List.any_filter, Bool.eq_iff_iff, List.any_eq_true, List.any_eq_true]
  constructor
  · intro hfiring
    obtain ⟨state, hmem, hof⟩ := hfiring
    rw [Bool.and_eq_true] at hof
    exact ⟨state, hmem, hof.2⟩
  · intro hfiring
    obtain ⟨state, hmem, hof⟩ := hfiring
    refine ⟨state, hmem, ?_⟩
    simp only [Bool.and_eq_true, decide_eq_true_eq] at hof ⊢
    exact ⟨hkeep state hmem hof.1 hof.2, hof⟩

/-- The signals that resolve some of a Monitor's firing groups. -/
theorem signalsOf_resolved (hstates : Keyed states) (mk : MonitorState → Payload)
    (among : MonitorState → Bool) (key : String)
    (hamong : ∀ state ∈ states, state.groupKey = key → among state = true) :
    signalsOf (((states.filter among).filter fun state => state.status = .firing).map fun state =>
      ⟨.monitorResolved, state.groupKey, mk state⟩) key = owed (firingOf states key) false := by
  have hkeyed : (((states.filter among).filter fun state => state.status = .firing).map
      MonitorState.groupKey).Nodup :=
    hstates.sublist ((List.filter_sublist.trans List.filter_sublist).map _)
  rw [← List.filterMap_eq_map, signalsOf_filterMap MonitorState.groupKey _ _ _ hkeyed]
  · have hfind : (((states.filter among).filter fun state => state.status = .firing).find?
        fun state => state.groupKey = key).isSome = firingOf states key := by
      rw [Bool.eq_iff_iff, List.find?_isSome, firingOf, List.any_eq_true]
      constructor
      · intro hfound
        obtain ⟨state, hmem, hkey⟩ := hfound
        obtain ⟨hmem, hfiring⟩ := List.mem_filter.mp hmem
        exact ⟨state, (List.mem_filter.mp hmem).1, by
          rw [Bool.and_eq_true]
          exact ⟨hkey, hfiring⟩⟩
      · intro hfiring
        obtain ⟨state, hmem, hof⟩ := hfiring
        rw [Bool.and_eq_true] at hof
        have hkey : state.groupKey = key := by simpa using hof.1
        exact ⟨state, List.mem_filter.mpr
          ⟨List.mem_filter.mpr ⟨hmem, hamong state hmem hkey⟩, hof.2⟩, hof.1⟩
    rw [owed, ← hfind]
    cases (((states.filter among).filter fun state => state.status = .firing).find?
        fun state => state.groupKey = key) with
    | none => rfl
    | some state => rfl
  · intro state change hchange
    obtain rfl := Option.some.inj hchange
    rfl

/-- A state that is absent is of a group that was not found. -/
theorem key_not_mem_of_mem_absentStates {state : MonitorState}
    (hstate : state ∈ absentStates found states) :
    state.groupKey ∉ found.groups.map Prod.fst :=
  of_decide_eq_true (List.mem_filter.mp (List.mem_filter.mp hstate).1).2

/-- A group that the run read stands where the run found it. -/
theorem firingOf_statesAfter_of_mem (hstates : Keyed states)
    {decided : List ((String × Reading) × Bool)} (hkeys : (decided.map fun group => group.1.1).Nodup)
    {group : (String × Reading) × Bool} (hgroup : group ∈ decided)
    (hin : group.1.1 ∈ found.groups.map Prod.fst) :
    firingOf (statesAfter now found states decided) group.1.1 = group.2 := by
  refine firingOf_foldl_upsert _ group.1.1 group.2 (fun row hrow hof => ?_) ?_
  · rcases List.mem_append.mp hrow with hrow | hrow
    · obtain ⟨other, hother, hmoved⟩ := List.mem_filterMap.mp hrow
      obtain ⟨hkey, hstatus⟩ := movedState_spec hmoved
      have hsame : other = group :=
        List.inj_on_of_nodup_map hkeys hother hgroup (hkey.symm.trans hof)
      exact hsame ▸ hstatus
    · obtain ⟨state, hstate, rfl⟩ := List.mem_map.mp hrow
      have hkey : state.groupKey = group.1.1 := hof
      exact absurd (hkey ▸ hin) (key_not_mem_of_mem_absentStates hstate)
  · cases hrow : movedState now states group.1.1 group.1.2 group.2 with
    | some row =>
      refine Or.inl ⟨row, List.mem_append_left _ ?_, (movedState_spec hrow).1⟩
      exact List.mem_filterMap.mpr ⟨group, hgroup, hrow⟩
    | none =>
      refine Or.inr ?_
      rw [firingOf_filter fun state _ hof _ => by simp [hof, hin]]
      exact firingOf_of_movedState_none hstates hrow

/-- A group without a row is ok. -/
theorem firingOf_statesAfter_of_not_mem {decided : List ((String × Reading) × Bool)}
    (hmem : ∀ group ∈ decided, group.1.1 ∈ found.groups.map Prod.fst) {key : String}
    (hnot : key ∉ found.groups.map Prod.fst) :
    firingOf (statesAfter now found states decided) key = false := by
  refine firingOf_foldl_upsert _ key false (fun row hrow hof => ?_) ?_
  · rcases List.mem_append.mp hrow with hrow | hrow
    · obtain ⟨group, hgroup, hmoved⟩ := List.mem_filterMap.mp hrow
      exact absurd (hof ▸ (movedState_spec hmoved).1 ▸ hmem group hgroup) hnot
    · obtain ⟨state, _, rfl⟩ := List.mem_map.mp hrow
      rfl
  · cases hwas : firingOf states key with
    | false => exact Or.inr ((firingOf_filter fun state _ _ hfiring => by simp [hfiring]).trans hwas)
    | true =>
      obtain ⟨state, hstate, hof⟩ := List.any_eq_true.mp hwas
      simp only [Bool.and_eq_true, decide_eq_true_eq] at hof
      have habsent : state ∈ absentStates found states := by
        refine List.mem_filter.mpr ⟨List.mem_filter.mpr ⟨hstate, ?_⟩, decide_eq_true hof.2⟩
        exact decide_eq_true (hof.1.symm ▸ hnot)
      exact Or.inl ⟨_, List.mem_append_right _ (List.mem_map_of_mem habsent), hof.1⟩

/-- Moving the states tells of each group what the change of its state owes. -/
theorem moveStates_spec (hstates : Keyed states) (hgroups : (found.groups.map Prod.fst).Nodup)
    {moved : Moved} (hmoved : moveStates m now found states = some moved) :
    Keyed moved.states ∧ ∀ key, signalsOf moved.changes key =
      owed (firingOf states key) (firingOf moved.states key) := by
  simp only [moveStates, Option.bind_eq_bind, Option.bind_eq_some_iff, Option.some.injEq] at hmoved
  obtain ⟨decided, hdecided, rfl⟩ := hmoved
  have hfst := mapM_fires hdecided
  have hfst' : found.groups.map Prod.fst = decided.map fun group => group.1.1 := by
    rw [← hfst, List.map_map]
    rfl
  have hkeys : (decided.map fun group => group.1.1).Nodup := hfst' ▸ hgroups
  have hmem : ∀ group ∈ decided, group.1.1 ∈ found.groups.map Prod.fst := by
    intro group hgroup
    rw [hfst']
    exact List.mem_map_of_mem hgroup
  refine ⟨Keyed.foldl_upsert (hstates.sublist (List.filter_sublist.map _)) _, fun key => ?_⟩
  rw [signalsOf_append, signalsOf_filterMap (fun group => group.1.1) _
    (fun group change hchange => groupChange_key hchange) decided hkeys]
  cases hfind : decided.find? fun group => group.1.1 = key with
  | some group =>
    have hgroup : group ∈ decided := List.mem_of_find?_eq_some hfind
    obtain rfl : group.1.1 = key := by simpa using List.find?_some hfind
    have hnone : signalsOf ((absentStates found states).map fun state => ⟨.monitorResolved,
        state.groupKey, changeFacts m noData { facts m found with
          absent := true, noData := state.lastValue.isNone }⟩) group.1.1 = [] := by
      refine signalsOf_eq_nil fun change hchange hof => ?_
      obtain ⟨state, hstate, rfl⟩ := List.mem_map.mp hchange
      have hkey : state.groupKey = group.1.1 := hof
      exact key_not_mem_of_mem_absentStates hstate (hkey ▸ hmem group hgroup)
    rw [hnone, List.append_nil, Option.bind_some, groupChange_signal hstates,
      firingOf_statesAfter_of_mem hstates hkeys hgroup (hmem group hgroup)]
  | none =>
    have hnot : key ∉ found.groups.map Prod.fst := by
      rw [hfst']
      intro hin
      obtain ⟨group, hgroup, hkey⟩ := List.mem_map.mp hin
      exact List.find?_eq_none.mp hfind group hgroup (decide_eq_true hkey)
    rw [firingOf_statesAfter_of_not_mem hmem hnot]
    refine (List.nil_append _).trans (signalsOf_resolved hstates _ _ key fun state _ hof => ?_)
    exact decide_eq_true (hof.symm ▸ hnot)

end Moving

section Telling

variable {s t : MonitorSystem} {integration : ℕ}

/-- One of distinct Integrations is told of a change once, if it is active. -/
theorem filter_map_notification {integrations : List ℕ} (hnodup : integrations.Nodup)
    (change : GroupChange) :
    (((integrations.filter s.active).map fun i => (⟨i, change⟩ : Notification)).filter
      fun n => n.integration = integration).map Notification.change =
        if integration ∈ integrations ∧ s.active integration then [change] else [] := by
  rw [List.filter_map, List.map_map]
  have hfilter : (integrations.filter s.active).filter
      ((fun n : Notification => decide (n.integration = integration)) ∘
        fun i => (⟨i, change⟩ : Notification)) =
      if integration ∈ integrations ∧ s.active integration then [integration] else [] := by
    have hone : ((integrations.filter s.active).filter fun i => i = integration) =
        ((integrations.filter s.active).find? fun i => i = integration).toList := by
      refine filter_key_eq_find? id _ ?_ integration
      rw [List.map_id]
      exact hnodup.sublist List.filter_sublist
    refine hone.trans ?_
    by_cases htold : integration ∈ integrations ∧ s.active integration = true
    · have hmem : integration ∈ integrations.filter s.active := List.mem_filter.mpr htold
      rw [if_pos htold]
      obtain ⟨found, hfound⟩ := Option.isSome_iff_exists.mp
        (List.find?_isSome (p := fun i => decide (i = integration)).mpr
          ⟨integration, hmem, by simp⟩)
      have hsame : found = integration := by simpa using List.find?_some hfound
      rw [hfound, hsame]
      rfl
    · rw [if_neg htold, List.find?_eq_none.mpr]
      · rfl
      · intro other hother hsame
        rw [decide_eq_true_eq] at hsame
        exact htold (List.mem_filter.mp (hsame ▸ hother))
  rw [hfilter]
  split <;> rfl

/-- Writing changes tells an Integration of all of them, or of none. -/
theorem signalsFor_monitorChanges {changes : List GroupChange} {integrations : List ℕ}
    (hnodup : integrations.Nodup) (key : String) :
    (s.monitorChanges changes integrations).signalsFor integration key =
      s.signalsFor integration key ++
        if integration ∈ integrations ∧ s.active integration then signalsOf changes key else [] := by
  rw [MonitorSystem.signalsFor, MonitorSystem.monitorChanges, List.filter_append, List.map_append,
    signalsOf_append]
  refine congrArg (s.signalsFor integration key ++ ·) ?_
  induction changes with
  | nil => simp [signalsOf]
  | cons change rest ih =>
    rw [List.flatMap_cons, List.filter_append, List.map_append, signalsOf_append, ih,
      filter_map_notification hnodup]
    split
    · rw [← signalsOf_append]
      rfl
    · rfl

/-- What resolving for another reason than a run tells. -/
theorem signalsOf_resolvedChanges (hstates : Keyed s.states) (was : LogMonitor) (version : ℤ)
    (reason : ResolveReason) (key : String) :
    signalsOf (resolvedChanges s was version reason) key = owed (firingOf s.states key) false := by
  have hall : s.states = s.states.filter fun _ => true := (List.filter_true _).symm
  conv_lhs => rw [resolvedChanges, hall]
  exact signalsOf_resolved hstates _ _ key fun _ _ _ => rfl

/-- What holds for an Integration that is active and linked throughout. -/
structure MonitorSystem.Inv (integration : ℕ) (s : MonitorSystem) : Prop where
  states : Keyed s.states
  links : s.links.Nodup
  /-- It is linked as long as there is a Monitor. -/
  linked : s.monitor.isSome → integration ∈ s.links
  active : s.active integration = true
  /-- A deleted Monitor has no states. -/
  deleted : s.monitor = none → s.states = []
  /-- The rows of each group alternate, and the last is where the group stands. -/
  signals : ∀ key, Valid false (s.signalsFor integration key) ∧
    final false (s.signalsFor integration key) = firingOf s.states key

namespace MonitorSystem

/-- Telling every linked Integration what changes of the states owe. -/
theorem Inv.tell (hinv : s.Inv integration) {changes : List GroupChange}
    (hsome : s.monitor.isSome) (hstates : Keyed t.states)
    (hdeleted : t.monitor = none → t.states = [])
    (hchanges : ∀ key, signalsOf changes key = owed (firingOf s.states key) (firingOf t.states key))
    (hlinks : t.links.Nodup) (hlinked : t.monitor.isSome → integration ∈ t.links)
    (hactive : t.active = s.active)
    (hnotifications : t.notifications = (s.monitorChanges changes s.links).notifications) :
    t.Inv integration := by
  refine ⟨hstates, hlinks, hlinked, hactive ▸ hinv.active, hdeleted, fun key => ?_⟩
  have hsignals : t.signalsFor integration key =
      s.signalsFor integration key ++ owed (firingOf s.states key) (firingOf t.states key) := by
    have hsame : t.signalsFor integration key =
        (s.monitorChanges changes s.links).signalsFor integration key := by
      rw [signalsFor, signalsFor, hnotifications]
    rw [hsame, signalsFor_monitorChanges hinv.links, if_pos ⟨hinv.linked hsome, hinv.active⟩,
      hchanges]
  rw [hsignals]
  exact valid_append_owed (hinv.signals key).1 (hinv.signals key).2

/-- What leaves the states, the rows, the links and the Integrations keeps the invariant. -/
theorem Inv.congr (hinv : s.Inv integration) (hmonitor : t.monitor.isSome = s.monitor.isSome)
    (hstates : t.states = s.states) (hnotifications : t.notifications = s.notifications)
    (hlinks : t.links = s.links) (hactive : t.active = s.active) : t.Inv integration := by
  refine ⟨hstates ▸ hinv.states, hlinks ▸ hinv.links, ?_, hactive ▸ hinv.active, ?_, ?_⟩
  · rw [hmonitor, hlinks]
    exact hinv.linked
  · intro hnone
    rw [hstates]
    refine hinv.deleted ?_
    rw [hnone] at hmonitor
    exact Option.isNone_iff_eq_none.mp (by simpa using hmonitor.symm)
  · intro key
    rw [hstates, signalsFor, hnotifications]
    exact hinv.signals key

/-- Resolving the groups keeps the invariant. -/
theorem Inv.resolveGroups (hinv : s.Inv integration) (hsome : s.monitor.isSome) (was : LogMonitor)
    (version : ℤ) (reason : ResolveReason) : (s.resolveGroups was version reason).Inv integration := by
  refine hinv.tell hsome List.nodup_nil (fun _ => rfl) (fun key => ?_) hinv.links hinv.linked rfl rfl
  exact signalsOf_resolvedChanges hinv.states was version reason key

/-- An Integration that stays linked is told nothing of another's unlinking. -/
theorem Inv.resolveGroupsFor (hinv : s.Inv integration) (m : LogMonitor) (version : ℤ) {other : ℕ}
    (hother : other ≠ integration) : (s.resolveGroupsFor m version other).Inv integration := by
  refine ⟨hinv.states, hinv.links, hinv.linked, hinv.active, hinv.deleted, fun key => ?_⟩
  rw [MonitorSystem.resolveGroupsFor, signalsFor_monitorChanges (List.nodup_singleton other),
    if_neg fun htold => hother (List.mem_singleton.mp htold.1).symm, List.append_nil]
  exact hinv.signals key

/-- Resolving for Integrations one after another leaves the Monitor and its links. -/
theorem Inv.foldl_resolveGroupsFor (hinv : s.Inv integration) (m : LogMonitor) (version : ℤ)
    (removed : List ℕ) (hremoved : integration ∉ removed) :
    (removed.foldl (fun s other => s.resolveGroupsFor m version other) s).Inv integration ∧
      (removed.foldl (fun s other => s.resolveGroupsFor m version other) s).monitor = s.monitor := by
  induction removed generalizing s with
  | nil => exact ⟨hinv, rfl⟩
  | cons other rest ih =>
    rw [List.mem_cons, not_or] at hremoved
    exact ih (hinv.resolveGroupsFor m version (Ne.symm hremoved.1)) hremoved.2

/-- Linking Integrations keeps the invariant of one that stays linked. -/
theorem Inv.setIntegrations (hinv : s.Inv integration) (m : LogMonitor) (version : ℤ)
    {integrations : List ℕ} (hkept : integration ∈ integrations) :
    (s.setIntegrations m version integrations).Inv integration := by
  have hremoved : integration ∉ s.links.filter fun link => link ∉ integrations := by
    simp [hkept]
  obtain ⟨htold, hmonitor⟩ := hinv.foldl_resolveGroupsFor m version _ hremoved
  refine ⟨htold.states, ?_, ?_, htold.active, htold.deleted, htold.signals⟩
  · refine List.nodup_append.mpr ⟨hinv.links.sublist List.filter_sublist,
      (List.nodup_dedup _).sublist List.filter_sublist, fun a ha b hb hsame => ?_⟩
    have hfresh := (List.mem_filter.mp hb).2
    rw [decide_eq_true_eq] at hfresh
    exact hfresh (hsame ▸ (List.mem_filter.mp ha).1)
  · intro hsome
    have hlinked := hinv.linked (hmonitor ▸ hsome)
    exact List.mem_append_left _ (List.mem_filter.mpr ⟨hlinked, decide_eq_true hkept⟩)

/-- The end of a run keeps the invariant. -/
theorem Inv.finish (hinv : s.Inv integration) (now : ℤ) (error : Option String)
    (firing matched : Option ℕ) : (s.finish now error firing matched).Inv integration :=
  hinv.congr rfl rfl rfl rfl rfl

/-- Recording a run keeps the invariant if what it writes does. -/
theorem Inv.record (hinv : s.Inv integration) {run : RunGoing}
    {write : MonitorSystem → Option MonitorSystem}
    (hwrite : ∀ t, s.monitor.isSome → write s = some t → t.Inv integration)
    (hrecord : s.record run write = some t) : t.Inv integration := by
  rw [MonitorSystem.record] at hrecord
  cases hmonitor : s.monitor with
  | none =>
    rw [hmonitor] at hrecord
    exact Option.some.inj hrecord ▸ hinv
  | some current =>
    rw [hmonitor] at hrecord
    dsimp only at hrecord
    split at hrecord
    · exact Option.some.inj hrecord ▸ hinv.finish _ _ _ _
    · exact hwrite t (by simp [hmonitor]) hrecord

/-- A threshold run keeps the invariant. -/
theorem Inv.runThreshold (hinv : s.Inv integration) {toJson : List (String × Cell) → String}
    {run : RunGoing} {retentionDays : ℤ} {current : Answer} {baseline : Option Answer}
    (hrun : s.runThreshold toJson run retentionDays current baseline = some t) :
    t.Inv integration := by
  rw [MonitorSystem.runThreshold] at hrun
  cases hfound : readThreshold toJson run.monitor run.now retentionDays current baseline with
  | error error =>
    rw [hfound] at hrun
    refine hinv.record (fun t _ hwrite => ?_) hrun
    exact Option.some.inj hwrite ▸ hinv.finish _ _ _ _
  | ok found =>
    rw [hfound] at hrun
    refine hinv.record (fun t hsome hwrite => ?_) hrun
    simp only [Option.bind_eq_bind, Option.bind_eq_some_iff] at hwrite
    obtain ⟨moved, hmoved, hwritten⟩ := hwrite
    obtain rfl := Option.some.inj hwritten
    obtain ⟨hstates, hchanges⟩ := moveStates_spec hinv.states (readThreshold_nodup hfound) hmoved
    refine hinv.tell hsome hstates (fun hnone => ?_) hchanges hinv.links hinv.linked rfl rfl
    exact absurd hsome (by rw [show s.monitor = none from hnone]; simp)

/-- A match run keeps the invariant. -/
theorem Inv.runMatch (hinv : s.Inv integration) {run : RunGoing} {answer : Except String ℕ}
    (hrun : s.runMatch run answer = some t) : t.Inv integration := by
  cases answer with
  | error error =>
    rw [MonitorSystem.runMatch] at hrun
    refine hinv.record (fun t _ hwrite => ?_) hrun
    exact Option.some.inj hwrite ▸ hinv.finish _ _ _ _
  | ok total =>
    rw [MonitorSystem.runMatch] at hrun
    refine hinv.record (fun t hsome hwrite => ?_) hrun
    obtain rfl := Option.some.inj hwrite
    refine hinv.tell hsome hinv.states (fun hnone => ?_) (fun key => ?_) hinv.links hinv.linked rfl
      rfl
    · exact absurd hsome (by rw [show s.monitor = none from hnone]; simp)
    · -- a match is no signal
      have hnone : signalsOf (if 0 < total then [(⟨.monitorMatched, "", ⟨none, none, none, none, none,
          none, none, none, none, false, false, none, some total⟩⟩ : GroupChange)] else []) key =
          [] := by
        rw [signalsOf]
        split
        · by_cases hkey : "" = key <;> simp [hkey, NotificationKind.signal]
        · rfl
      rw [hnone, owed]
      exact (if_pos rfl).symm

/-- A save keeps the invariant. -/
theorem Inv.save (hinv : s.Inv integration) {current : LogMonitor × ℤ} (was : LogMonitor)
    (version : ℤ) (saved : LogMonitor) (updatedAt : ℤ) {integrations : Option (List ℕ)}
    (hcurrent : s.monitor = some current)
    (hkept : ∀ l, integrations = some l → integration ∈ l) :
    (s.save current was version saved updatedAt integrations).Inv integration := by
  have hupdated : ∀ updated, ({ s with monitor := some updated } : MonitorSystem).Inv integration :=
    fun updated => hinv.congr (by rw [hcurrent]; rfl) rfl rfl rfl rfl
  unfold MonitorSystem.save
  cases resolveReason was saved with
  | none =>
    cases integrations with
    | none => exact hupdated _
    | some l => exact (hupdated _).setIntegrations saved _ (hkept l rfl)
  | some reason =>
    have hresolved := (hupdated (if saved = was then current else
      (mergeSettings was saved current.1, updatedAt))).resolveGroups rfl was version reason
    cases integrations with
    | none => exact hresolved
    | some l => exact hresolved.setIntegrations saved _ (hkept l rfl)

/-- Every step keeps the invariant. -/
theorem Inv.step (hinv : s.Inv integration) {toJson : List (String × Cell) → String}
    {a : MonitorAction} (hkeeps : s.keeps integration a) (hstep : s.step toJson a = some t) :
    t.Inv integration := by
  cases a with
  | start now =>
    simp only [MonitorSystem.step, Option.bind_eq_bind, Option.bind_eq_some_iff] at hstep
    obtain ⟨current, _, hstep⟩ := hstep
    obtain ⟨_, hstep⟩ := Option.ite_none_right_eq_some.mp hstep
    exact Option.some.inj hstep ▸ hinv.congr rfl rfl rfl rfl rfl
  | read i retentionDays current baseline =>
    simp only [MonitorSystem.step, Option.bind_eq_bind, Option.bind_eq_some_iff] at hstep
    obtain ⟨run, _, hstep⟩ := hstep
    obtain ⟨_, hstep⟩ := Option.ite_none_right_eq_some.mp hstep
    obtain rfl := Option.some.inj hstep
    cases hrun : s.runThreshold toJson run retentionDays current baseline with
    | none => exact hinv.congr rfl rfl rfl rfl rfl
    | some ended => exact (hinv.runThreshold hrun).congr rfl rfl rfl rfl rfl
  | matched i answer =>
    simp only [MonitorSystem.step, Option.bind_eq_bind, Option.bind_eq_some_iff] at hstep
    obtain ⟨run, _, hstep⟩ := hstep
    obtain ⟨_, hstep⟩ := Option.ite_none_right_eq_some.mp hstep
    obtain rfl := Option.some.inj hstep
    cases hrun : s.runMatch run answer with
    | none => exact hinv.congr rfl rfl rfl rfl rfl
    | some ended => exact (hinv.runMatch hrun).congr rfl rfl rfl rfl rfl
  | die i => exact Option.some.inj hstep ▸ hinv.congr rfl rfl rfl rfl rfl
  | save was version saved updatedAt integrations =>
    simp only [MonitorSystem.step, Option.bind_eq_bind, Option.bind_eq_some_iff] at hstep
    obtain ⟨current, hcurrent, hstep⟩ := hstep
    obtain ⟨_, hstep⟩ := Option.ite_none_right_eq_some.mp hstep
    obtain rfl := Option.some.inj hstep
    refine hinv.save was version _ updatedAt hcurrent fun l hl => ?_
    subst hl
    exact hkeeps
  | setActive other active =>
    obtain rfl := Option.some.inj hstep
    refine ⟨hinv.states, hinv.links, hinv.linked, ?_, hinv.deleted, hinv.signals⟩
    by_cases hother : integration = other
    · subst hother
      exact (Function.update_self ..).trans (hkeeps rfl)
    · exact (Function.update_of_ne hother ..).trans hinv.active
  | deleteIntegration other =>
    obtain rfl := Option.some.inj hstep
    have hother : integration ≠ other := Ne.symm hkeeps
    refine ⟨hinv.states, hinv.links.sublist List.filter_sublist, fun hsome => ?_, ?_, hinv.deleted,
      hinv.signals⟩
    · exact List.mem_filter.mpr ⟨hinv.linked hsome, decide_eq_true hother⟩
    · exact (Function.update_of_ne hother ..).trans hinv.active
  | destroy was version =>
    simp only [MonitorSystem.step, Option.bind_eq_bind, Option.bind_eq_some_iff] at hstep
    obtain ⟨current, hcurrent, hstep⟩ := hstep
    obtain rfl := Option.some.inj hstep
    have hresolved := hinv.resolveGroups (by rw [hcurrent]; rfl) was version .deleted
    exact ⟨hresolved.states, List.nodup_nil, by simp, hresolved.active, fun _ => rfl,
      hresolved.signals⟩

/-- The invariant holds of a Monitor that was just created. -/
theorem Inv.created {m : LogMonitor} {version : ℤ} {integrations : List ℕ} {active : ℕ → Bool}
    (hlinked : integration ∈ integrations) (hactive : active integration = true) :
    (created m version integrations active).Inv integration where
  states := List.nodup_nil
  links := List.nodup_dedup _
  linked := fun _ => List.mem_dedup.mpr hlinked
  active := hactive
  deleted := fun _ => rfl
  signals := fun _ => ⟨trivial, rfl⟩

end MonitorSystem

end Telling

section Guarantee

/-- The firing and resolved rows to an Integration about a group, oldest first. -/
def MonitorSystem.kindsFor (s : MonitorSystem) (integration : ℕ) (key : String) :
    List NotificationKind :=
  ((s.notifications.filter fun n => n.integration = integration ∧ n.change.groupKey = key).map
    fun n => n.change.kind).filter fun kind => kind ≠ .monitorMatched

/-- The rows of a group alternate, starting with firing, and the last is firing exactly when the
group has a firing state. -/
structure Alternates (s : MonitorSystem) (integration : ℕ) (key : String) : Prop where
  starts : ∀ kind ∈ (s.kindsFor integration key).head?, kind = .monitorFiring
  chain : (s.kindsFor integration key).IsChain (· ≠ ·)
  last : (s.kindsFor integration key).getLast? = some .monitorFiring ↔
    ∃ state ∈ s.states, state.groupKey = key ∧ state.status = .firing

/-- The signals of an Integration are those of its rows. -/
theorem signalsFor_eq_filterMap (s : MonitorSystem) (integration : ℕ) (key : String) :
    s.signalsFor integration key =
      (s.kindsFor integration key).filterMap NotificationKind.signal := by
  rw [MonitorSystem.signalsFor, signalsOf, MonitorSystem.kindsFor]
  induction s.notifications with
  | nil => rfl
  | cons n rest ih =>
    by_cases hintegration : n.integration = integration
    · by_cases hkey : n.change.groupKey = key
      · cases hkind : n.change.kind <;>
          simp [hintegration, hkey, hkind, NotificationKind.signal] at ih ⊢ <;> exact ih
      · simpa [hintegration, hkey] using ih
    · simpa [hintegration] using ih

/-- Signals that alternate from a level are kinds that alternate from it. -/
theorem chain_of_valid {kinds : List NotificationKind} (hkinds : .monitorMatched ∉ kinds)
    {level : Bool} (hvalid : Valid level (kinds.filterMap NotificationKind.signal)) :
    (∀ kind ∈ kinds.head?, kind.signal ≠ some level) ∧ kinds.IsChain (· ≠ ·) := by
  induction kinds generalizing level with
  | nil => simp
  | cons kind rest ih =>
    rw [List.mem_cons, not_or] at hkinds
    cases hsignal : kind.signal with
    | none => cases kind <;> simp [NotificationKind.signal] at hsignal hkinds
    | some signal =>
      rw [List.filterMap_cons_some hsignal] at hvalid
      obtain ⟨hhead, hchain⟩ := ih hkinds.2 hvalid.2
      refine ⟨?_, List.isChain_cons.mpr ⟨fun next hnext hsame => ?_, hchain⟩⟩
      · intro first hfirst
        obtain rfl := Option.some.inj hfirst
        rw [hsignal]
        exact fun hsame => hvalid.1 (Option.some.inj hsame)
      · exact hhead next hnext (hsame ▸ hsignal)

/-- The last of such kinds is the level. -/
theorem final_eq_true_iff {kinds : List NotificationKind} (hkinds : .monitorMatched ∉ kinds)
    (level : Bool) : final level (kinds.filterMap NotificationKind.signal) = true ↔
      kinds.getLast? = some .monitorFiring ∨ kinds = [] ∧ level = true := by
  induction kinds generalizing level with
  | nil => simp [final]
  | cons kind rest ih =>
    rw [List.mem_cons, not_or] at hkinds
    cases hsignal : kind.signal with
    | none => cases kind <;> simp [NotificationKind.signal] at hsignal hkinds
    | some signal =>
      rw [List.filterMap_cons_some hsignal, final, ih hkinds.2]
      cases rest with
      | nil => cases kind <;> simp_all [NotificationKind.signal]
      | cons next rest => simp [List.getLast?_cons_cons]

/-- For every Integration that is active and linked throughout, the firing and resolved rows of every
group alternate and end where the group stands, whatever runs find, whenever they end, and however
the Monitor is saved, turned off and on, and deleted meanwhile. -/
theorem firing_alternates (toJson : List (String × Cell) → String) (m : LogMonitor) (version : ℤ)
    (integrations : List ℕ) (active : ℕ → Bool) (integration : ℕ)
    (hlinked : integration ∈ integrations) (hactive : active integration = true)
    (s : MonitorSystem) (hrun : Reaches (MonitorSystem.step toJson)
      (MonitorSystem.keeps integration) (.created m version integrations active) s)
    (key : String) : Alternates s integration key := by
  have hinv : s.Inv integration := hrun.invariant (MonitorSystem.Inv.created hlinked hactive)
    fun _ _ _ hinv hkeeps hstep => hinv.step hkeeps hstep
  have hkinds : .monitorMatched ∉ s.kindsFor integration key := by
    simp [MonitorSystem.kindsFor]
  obtain ⟨hvalid, hfinal⟩ := hinv.signals key
  rw [signalsFor_eq_filterMap] at hvalid hfinal
  obtain ⟨hhead, hchain⟩ := chain_of_valid hkinds hvalid
  refine ⟨fun kind hkind => ?_, hchain, ?_⟩
  · have hsignal := hhead kind hkind
    have hne : kind ≠ .monitorMatched := fun hsame =>
      hkinds (hsame ▸ List.mem_of_mem_head? hkind)
    cases kind <;> simp_all [NotificationKind.signal]
  · have hlast := final_eq_true_iff hkinds false
    rw [hfinal, firingOf, List.any_eq_true] at hlast
    simpa using hlast.symm

instance (integration : ℕ) (s : MonitorSystem) (a : MonitorAction) :
    Decidable (s.keeps integration a) :=
  match a with
  | .save _ _ _ _ (some integrations) => inferInstanceAs (Decidable (integration ∈ integrations))
  | .setActive other active => inferInstanceAs (Decidable (other = integration → active = true))
  | .deleteIntegration other => inferInstanceAs (Decidable (other ≠ integration))
  | .save _ _ _ _ none | .start _ | .read .. | .matched .. | .die _ | .destroy .. => isTrue trivial

/-- A Monitor of the errors of each service. -/
def errorsByService : LogMonitor where
  name := "Errors"
  kind := .threshold
  compare := .value
  operator := some .gt
  threshold := some 5
  baseline := none
  minimum := none
  query := "logs | summarize count() by service"
  project := 7
  rangeMinutes := 5
  intervalMinutes := 1
  notifyByGroup := true
  alertOnNoData := false
  disabledAt := none

/-- A table of one service's errors. -/
def errorsOf (service : String) (count : ℚ) : Answer :=
  .table ⟨[⟨"service", .string⟩, ⟨"count", .number⟩], [[.string service, .number count]], false⟩

/-- A group's one column, as its text. -/
def firstText : List (String × Cell) → String
  | (_, .string value) :: _ => value
  | _ => "other"

/-- A service fires. While a second run reads it, another Integration is unlinked and the Monitor
turned off, which resolves it. The run then changes nothing, and after the Monitor is turned on the
service fires again, and resolves when it is gone. -/
def turnedOffDuringRun : List MonitorAction :=
  let off := { errorsByService with disabledAt := some 120 }
  [.start 60, .read 0 30 (errorsOf "web" 9) none, .start 120,
    .save errorsByService 0 errorsByService 0 (some [1]),
    .save errorsByService 0 off 1 none, .read 0 30 (errorsOf "web" 8) none,
    .save off 1 errorsByService 2 none, .start 180, .read 0 30 (errorsOf "web" 7) none, .start 240,
    .read 0 30 (errorsOf "api" 1) none, .start 300, .read 0 30 .logs none]

/-- The run of a Monitor that is turned off meanwhile is one. -/
private theorem turnedOffDuringRun_runs : (Transition.run (MonitorSystem.step firstText)
    (MonitorSystem.keeps 1) (.created errorsByService 0 [1, 2] fun _ => true)
    turnedOffDuringRun).isSome = true := by
  decide +kernel

/-- Signals alternate for a Monitor that is turned off during a run. -/
theorem firing_alternates_turnedOffDuringRun : ∃ s : MonitorSystem,
    Transition.run (MonitorSystem.step firstText) (MonitorSystem.keeps 1)
      (.created errorsByService 0 [1, 2] fun _ => true) turnedOffDuringRun = some s ∧
      s.kindsFor 1 "web" = [.monitorFiring, .monitorResolved, .monitorFiring, .monitorResolved] ∧
      Alternates s 1 "web" := by
  have hrun := (Option.some_get turnedOffDuringRun_runs).symm
  exact ⟨_, hrun, by decide +kernel, firing_alternates firstText errorsByService 0 [1, 2]
    (fun _ => true) 1 (by decide) rfl _ (reaches_of_run hrun) "web"⟩

end Guarantee

end SolidTrace.Monitors
