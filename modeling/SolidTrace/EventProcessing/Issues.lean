import SolidTrace.EventProcessing.ProcessBatch

/-!
# The Issues of Events

A fingerprint that leads to an Issue leads to it ever after, so an Event's row and the Issue it
counts on stay what they were when its Issue work was done. Counting a batch adds to each Issue the
rows of the batch that name it.
-/

namespace SolidTrace.EventProcessing

open Storage SortedHistory

variable {J : Type*}

namespace SQLite

/-- What ties Issues and fingerprints: Issues are numbered from one, and every fingerprint leads to
an Issue of its Project. -/
structure Inv (db : SQLite) : Prop where
  ids : db.issues.map Issue.id = List.range' 1 db.issues.length
  fingerprints : ∀ f ∈ db.fingerprints, ∃ issue ∈ db.issues, issue.id = f.issueID ∧
    issue.project = f.project

/-- Every fingerprint that leads to an Issue in one database leads to it in the other. -/
def Extends (db' db : SQLite) : Prop :=
  ∀ project fingerprint found, db.findIssueByFingerprint project fingerprint = some found →
    ∃ found', db'.findIssueByFingerprint project fingerprint = some found' ∧
      found'.issueID = found.issueID ∧ found'.fingerprintID = found.fingerprintID

/-- The invariant holds of a new database. -/
theorem Inv.new : Inv SQLite.new := ⟨rfl, by simp [SQLite.new]⟩

variable {db : SQLite}

/-- An issue's id is one of those given out. -/
theorem Inv.id_le (hinv : db.Inv) {issue : Issue} (hissue : issue ∈ db.issues) :
    issue.id ≤ db.issues.length := by
  have hid : issue.id ∈ List.range' 1 db.issues.length := hinv.ids ▸ List.mem_map_of_mem hissue
  rw [List.mem_range'_1] at hid
  omega

/-- An Issue's id is its own. -/
theorem Inv.eq_of_id_eq (hinv : db.Inv) {a b : Issue} (ha : a ∈ db.issues) (hb : b ∈ db.issues)
    (hid : a.id = b.id) : a = b := by
  have hnodup : (db.issues.map Issue.id).Nodup := hinv.ids ▸ List.nodup_range'
  exact List.inj_on_of_nodup_map hnodup ha hb hid

/-- What a lookup finds: a fingerprint of the Project, and the Issue it leads to. -/
theorem find_spec {project : ProjectID} {fingerprint : String} {found : FoundIssue}
    (hfound : db.findIssueByFingerprint project fingerprint = some found) :
    ∃ f, db.fingerprints.find? (fun f => f.project = project && f.fingerprint = fingerprint) =
        some f ∧ f.id = found.fingerprintID ∧ f.issueID = found.issueID ∧
      ∃ issue, db.issues.find? (fun issue => issue.id = f.issueID) = some issue ∧
        issue.status = found.status := by
  simp only [findIssueByFingerprint, Option.bind_eq_bind, Option.bind_eq_some_iff,
    Option.some.injEq] at hfound
  obtain ⟨f, hf, issue, hissue, rfl⟩ := hfound
  have hid : issue.id = f.issueID := by simpa using List.find?_some hissue
  exact ⟨f, hf, rfl, hid.symm, issue, hissue, rfl⟩

/-- The Issue of a lookup is an Issue of the Project. -/
theorem Inv.exists_issue (hinv : db.Inv) {project : ProjectID} {fingerprint : String}
    {found : FoundIssue} (hfound : db.findIssueByFingerprint project fingerprint = some found) :
    ∃ issue ∈ db.issues, issue.id = found.issueID ∧ issue.project = project := by
  obtain ⟨f, hf, -, hissueID, -⟩ := find_spec hfound
  obtain ⟨issue, hissue, hid, hproject⟩ := hinv.fingerprints f (List.mem_of_find?_eq_some hf)
  have hmatch := List.find?_some hf
  simp only [Bool.and_eq_true, decide_eq_true_eq] at hmatch
  exact ⟨issue, hissue, hid.trans hissueID, hproject.trans hmatch.1⟩

/-- A fingerprint that leads to no Issue is not there. -/
theorem Inv.find?_eq_none (hinv : db.Inv) {project : ProjectID} {fingerprint : String}
    (hnone : db.findIssueByFingerprint project fingerprint = none) :
    db.fingerprints.find? (fun f => f.project = project && f.fingerprint = fingerprint) = none := by
  by_contra hsome
  obtain ⟨f, hf⟩ := Option.ne_none_iff_exists'.mp hsome
  obtain ⟨issue, hissue, hid, -⟩ := hinv.fingerprints f (List.mem_of_find?_eq_some hf)
  have hfind : (db.issues.find? fun issue => issue.id = f.issueID).isSome :=
    List.find?_isSome.mpr ⟨issue, hissue, by simpa using hid⟩
  obtain ⟨other, hother⟩ := Option.isSome_iff_exists.mp hfind
  simp [findIssueByFingerprint, hf, hother] at hnone

/-- Changing Issues under their ids leaves what fingerprints lead to. -/
theorem extends_of_map {change : Issue → Issue} (hid : ∀ issue, (change issue).id = issue.id)
    {db' : SQLite} (hissues : db'.issues = db.issues.map change)
    (hfingerprints : db'.fingerprints = db.fingerprints) : db'.Extends db := by
  intro project fingerprint found hfound
  obtain ⟨f, hf, hfid, hissueID, issue, hissue, -⟩ := find_spec hfound
  have hfind : db'.issues.find? (fun issue => issue.id = f.issueID) = some (change issue) := by
    rw [hissues, List.find?_map]
    simp only [Function.comp_def, hid, hissue, Option.map_some]
  refine ⟨⟨(change issue).id, f.id, (change issue).status⟩, ?_, ?_, hfid⟩
  · simp [findIssueByFingerprint, hfingerprints, hf, hfind]
  · have hissue' : issue.id = f.issueID := by simpa using List.find?_some hissue
    exact (hid issue).trans (hissue'.trans hissueID)

/-- A change that leaves the ids, Projects and fingerprints keeps the invariant. -/
theorem Inv.of_map (hinv : db.Inv) {change : Issue → Issue}
    (hid : ∀ issue, (change issue).id = issue.id)
    (hproject : ∀ issue, (change issue).project = issue.project) {db' : SQLite}
    (hissues : db'.issues = db.issues.map change)
    (hfingerprints : db'.fingerprints = db.fingerprints) : db'.Inv := by
  constructor
  · rw [hissues, List.map_map, List.length_map, ← hinv.ids]
    exact List.map_congr_left fun issue _ => hid issue
  · intro f hf
    rw [hfingerprints] at hf
    obtain ⟨issue, hissue, hissueID, hof⟩ := hinv.fingerprints f hf
    refine ⟨change issue, hissues ▸ List.mem_map_of_mem hissue, ?_, ?_⟩
    · rw [hid, hissueID]
    · rw [hproject, hof]

/-- Creating an issue keeps the invariant. -/
theorem Inv.createIssue (hinv : db.Inv) (project : ProjectID) (details : IssueDetails) :
    (db.createIssue project details).Inv := by
  constructor
  · simp only [SQLite.createIssue, List.map_append, hinv.ids, List.map_cons, List.map_nil,
      List.length_append, List.length_singleton]
    rw [List.range'_concat]
    simp [Nat.add_comm]
  · intro f hf
    rcases List.mem_append.mp hf with hf | hf
    · obtain ⟨issue, hissue, hid, hof⟩ := hinv.fingerprints f hf
      exact ⟨issue, List.mem_append_left _ hissue, hid, hof⟩
    · obtain rfl := List.mem_singleton.mp hf
      exact ⟨_, List.mem_append_right _ (List.mem_singleton_self _), rfl, rfl⟩

/-- Creating an issue leaves those before it. -/
theorem createIssue_extends (project : ProjectID) (details : IssueDetails) :
    (db.createIssue project details).Extends db := by
  intro other fingerprint found hfound
  obtain ⟨f, hf, hfid, hissueID, issue, hissue, hstatus⟩ := find_spec hfound
  have hissue' : issue.id = f.issueID := by simpa using List.find?_some hissue
  refine ⟨⟨issue.id, f.id, issue.status⟩, ?_, hissue'.trans hissueID, hfid⟩
  simp [findIssueByFingerprint, SQLite.createIssue, List.find?_append, hf, hissue]

/-- A created Issue is what its fingerprint leads to. -/
theorem Inv.find_createIssue (hinv : db.Inv) (project : ProjectID) (details : IssueDetails)
    (hnone : db.findIssueByFingerprint project details.fingerprint = none) :
    (db.createIssue project details).findIssueByFingerprint project details.fingerprint =
      some ⟨db.issues.length + 1, db.fingerprints.length + 1, .open⟩ := by
  have hfresh : db.issues.find? (fun issue => issue.id = db.issues.length + 1) = none := by
    refine List.find?_eq_none.mpr fun issue hissue => ?_
    have hle := hinv.id_le hissue
    simp only [decide_eq_true_eq]
    omega
  simp [findIssueByFingerprint, SQLite.createIssue, List.find?_append, hinv.find?_eq_none hnone,
    hfresh]

end SQLite

/-- An Event's row and the Issue it names, where the payload can be read and its fingerprint leads
to an Issue. -/
def workedRow (reader : PayloadReader J) (db : SQLite) (project : ProjectID) (event : Event J) :
    Option (EventRow × ℕ) := do
  let details ← reader.details event.raw
  let found ← db.findIssueByFingerprint project details.fingerprint
  some (⟨event.id, found.fingerprintID, reader.timestamp event.raw event.id,
    reader.fields event.raw⟩, found.issueID)

/-- The fingerprint of an Event that can be read leads to an Issue. -/
def HasIssue (reader : PayloadReader J) (db : SQLite) (project : ProjectID) (event : Event J) :
    Prop :=
  ∀ details, reader.details event.raw = some details →
    (db.findIssueByFingerprint project details.fingerprint).isSome

/-- An event that has an issue has it later too. -/
theorem HasIssue.mono {reader : PayloadReader J} {db db' : SQLite} {project : ProjectID}
    {event : Event J} (hissue : HasIssue reader db project event) (hext : db'.Extends db) :
    HasIssue reader db' project event := by
  intro details hdetails
  obtain ⟨found, hfound⟩ := Option.isSome_iff_exists.mp (hissue details hdetails)
  obtain ⟨found', hfound', -⟩ := hext _ _ _ hfound
  simp [hfound']

/-- Once an Event has its Issue, its row stays. -/
theorem HasIssue.workedRow_eq {reader : PayloadReader J} {db db' : SQLite} {project : ProjectID}
    {event : Event J} (hissue : HasIssue reader db project event) (hext : db'.Extends db) :
    workedRow reader db' project event = workedRow reader db project event := by
  rw [workedRow, workedRow]
  cases hdetails : reader.details event.raw with
  | none => rfl
  | some details =>
    obtain ⟨found, hfound⟩ := Option.isSome_iff_exists.mp (hissue details hdetails)
    obtain ⟨found', hfound', hid, hfid⟩ := hext _ _ _ hfound
    simp [hfound, hfound', hid, hfid]

/-- What Issue work leaves: a database that extends the one before, and the Event's row. -/
theorem issueWork_spec (reader : PayloadReader J) {db : SQLite} (hinv : db.Inv)
    (project : ProjectID) (event : Event J) {details : IssueDetails}
    (hdetails : reader.details event.raw = some details) :
    (issueWork reader db project event details).1.Inv ∧
      (issueWork reader db project event details).1.Extends db ∧
      HasIssue reader (issueWork reader db project event details).1 project event ∧
      workedRow reader (issueWork reader db project event details).1 project event =
        some ((issueWork reader db project event details).2.row,
          (issueWork reader db project event details).2.issueID) := by
  rw [issueWork]
  cases hfound : db.findIssueByFingerprint project details.fingerprint with
  | none =>
    have hcreated := hinv.find_createIssue project details hfound
    refine ⟨hinv.createIssue project details, SQLite.createIssue_extends project details, ?_, ?_⟩
    · intro other hother
      obtain rfl := Option.some.inj (hdetails.symm.trans hother)
      simp [hcreated]
    · simp [workedRow, hdetails, hcreated]
  | some found =>
    dsimp only
    have hstatus : ∀ issueID status, (db.setStatus issueID status).Inv ∧
        (db.setStatus issueID status).Extends db := by
      intro issueID status
      have hid : ∀ issue : Issue,
          (if issue.id = issueID then { issue with status := status } else issue).id = issue.id := by
        intro issue
        split <;> rfl
      refine ⟨hinv.of_map hid ?_ rfl rfl, SQLite.extends_of_map hid rfl rfl⟩
      intro issue
      split <;> rfl
    have hdb : ((if found.status = .resolved then db.reopenIssue found.issueID else db).Inv) ∧
        (if found.status = .resolved then db.reopenIssue found.issueID else db).Extends db := by
      split
      · exact hstatus found.issueID .open
      · exact ⟨hinv, fun _ _ found hfound => ⟨found, hfound, rfl, rfl⟩⟩
    have hissue : HasIssue reader db project event := by
      intro other hother
      obtain rfl := Option.some.inj (hdetails.symm.trans hother)
      simp [hfound]
    refine ⟨hdb.1, hdb.2, hissue.mono hdb.2, ?_⟩
    rw [hissue.workedRow_eq hdb.2]
    simp [workedRow, hdetails, hfound]

/-- An Event's row in the events table, if it can be read and stored. -/
def eventRows (reader : PayloadReader J) (db : SQLite) (project : ProjectID) (event : Event J) :
    List EventRow :=
  ((workedRow reader db project event).toList.filter fun worked => worked.1.storable).map Prod.fst

/-- The Issue an Event counts on, if it can be read and stored. -/
def countedOn (reader : PayloadReader J) (db : SQLite) (project : ProjectID) (event : Event J) :
    List ℕ :=
  ((workedRow reader db project event).toList.filter fun worked => worked.1.storable).map Prod.snd

section Counting

variable {reader : PayloadReader J} {db db' : SQLite} {project : ProjectID}

/-- An event is counted on the same issue later. -/
theorem HasIssue.countedOn_eq {event : Event J} (hissue : HasIssue reader db project event)
    (hext : db'.Extends db) :
    countedOn reader db' project event = countedOn reader db project event := by
  rw [countedOn, countedOn, hissue.workedRow_eq hext]

/-- An event has the same row later. -/
theorem HasIssue.eventRows_eq {event : Event J} (hissue : HasIssue reader db project event)
    (hext : db'.Extends db) :
    eventRows reader db' project event = eventRows reader db project event := by
  rw [eventRows, eventRows, hissue.workedRow_eq hext]

/-- A row names its Event. -/
theorem uuid_of_mem_eventRows {event : Event J} {row : EventRow}
    (hrow : row ∈ eventRows reader db project event) : row.uuid = event.id := by
  simp only [eventRows, workedRow, List.mem_map, List.mem_filter, Option.mem_toList,
    Option.bind_eq_bind, Option.bind_eq_some_iff, Option.some.injEq] at hrow
  obtain ⟨_, ⟨⟨_, _, _, _, rfl⟩, _⟩, rfl⟩ := hrow
  rfl

/-- An Event counts on an Issue of its Project. -/
theorem SQLite.Inv.exists_issue_of_mem_countedOn (hinv : db.Inv) {event : Event J} {id : ℕ}
    (hid : id ∈ countedOn reader db project event) :
    ∃ issue ∈ db.issues, issue.id = id ∧ issue.project = project := by
  simp only [countedOn, workedRow, List.mem_map, List.mem_filter, Option.mem_toList,
    Option.bind_eq_bind, Option.bind_eq_some_iff, Option.some.injEq] at hid
  obtain ⟨_, ⟨⟨_, _, _, hfound, rfl⟩, _⟩, rfl⟩ := hid
  exact hinv.exists_issue hfound

/-- Every Issue was seen as often as Events up to the guard count on it. -/
def Counts (reader : PayloadReader J) (db : SQLite) (history : ProjectID → List (Event J)) : Prop :=
  ∀ issue ∈ db.issues, issue.timesSeen =
    ((upTo Event.key (history issue.project) (db.seen issue.project)).flatMap
      (countedOn reader db issue.project)).count issue.id

/-- Issue work counts nothing: the Issues there keep their counts, and a new one has none. -/
theorem Counts.of_extends {history : ProjectID → List (Event J)} (hcounts : Counts reader db history)
    (hinv : db.Inv) (hext : db'.Extends db) (hseen : db'.seen = db.seen)
    (hissues : ∀ project, ∀ event ∈ upTo Event.key (history project) (db.seen project),
      HasIssue reader db project event)
    (hcases : ∀ issue ∈ db'.issues, (∃ old ∈ db.issues, old.id = issue.id ∧
      old.project = issue.project ∧ old.timesSeen = issue.timesSeen) ∨
      issue.timesSeen = 0 ∧ db.issues.length < issue.id) : Counts reader db' history := by
  intro issue hissue
  have hsame : (upTo Event.key (history issue.project) (db'.seen issue.project)).flatMap
      (countedOn reader db' issue.project) =
      (upTo Event.key (history issue.project) (db.seen issue.project)).flatMap
        (countedOn reader db issue.project) := by
    rw [hseen]
    exact List.flatMap_congr fun event hevent =>
      (hissues issue.project event hevent).countedOn_eq hext
  rw [hsame]
  rcases hcases issue hissue with ⟨old, hold, hid, hproject, htimes⟩ | ⟨htimes, hfresh⟩
  · rw [← htimes, ← hid, ← hproject]
    exact hcounts old hold
  · rw [htimes, eq_comm, List.count_eq_zero]
    intro hmem
    obtain ⟨event, -, hevent⟩ := List.mem_flatMap.mp hmem
    obtain ⟨other, hother, hid, -⟩ := hinv.exists_issue_of_mem_countedOn hevent
    have hle := hinv.id_le hother
    omega

/-- Counting an event leaves an issue's id. -/
@[simp] theorem SQLite.addSeen_id (issue : Issue) (times : List ℤ) :
    (SQLite.addSeen issue times).id = issue.id := by
  rw [SQLite.addSeen]
  split <;> rfl

/-- Counting an event leaves an issue's Project. -/
@[simp] theorem SQLite.addSeen_project (issue : Issue) (times : List ℤ) :
    (SQLite.addSeen issue times).project = issue.project := by
  rw [SQLite.addSeen]
  split <;> rfl

/-- Every event is counted on its issue. -/
@[simp] theorem SQLite.addSeen_timesSeen (issue : Issue) (times : List ℤ) :
    (SQLite.addSeen issue times).timesSeen = issue.timesSeen + times.length := by
  cases times with
  | nil => rfl
  | cons time rest =>
    obtain ⟨first, hfirst⟩ := Option.ne_none_iff_exists'.mp
      (mt List.min?_eq_none_iff.mp (List.cons_ne_nil time rest))
    obtain ⟨last, hlast⟩ := Option.ne_none_iff_exists'.mp
      (mt List.max?_eq_none_iff.mp (List.cons_ne_nil time rest))
    simp [SQLite.addSeen, hfirst, hlast]

/-- The storable rows of Events, Event by Event. -/
theorem map_storable_filterMap {β : Type*} (events : List (Event J)) (f : EventRow × ℕ → β) :
    ((events.filterMap (workedRow reader db project)).filter fun worked =>
        worked.1.storable).map f =
      events.flatMap fun event => ((workedRow reader db project event).toList.filter fun worked =>
        worked.1.storable).map f := by
  rw [List.filterMap_eq_flatMap_toList, List.filter_flatMap, List.map_flatMap]

/-- Counting a range past the guard counts each of its rows on its Issue. -/
theorem Counts.recordSeenEvents {history : ProjectID → List (Event J)}
    (hcounts : Counts reader db history) (hinv : db.Inv) (rows : List WorkedRow) {cursor : WithBot UUID}
    {through : UUID} (hincreasing : Increasing Event.key (history project))
    (hseen : db.seen project ≤ cursor) (hcursor : cursor < through)
    (hgap : ∀ event ∈ between Event.key (history project) (db.seen project) cursor,
      countedOn reader db project event = [])
    (hrows : rows.map (fun row => (row.row, row.issueID)) =
      ((between Event.key (history project) cursor through).filterMap
        (workedRow reader db project)).filter fun worked => worked.1.storable)
    (hissues : ∀ other, ∀ event ∈ upTo Event.key (history other)
      (Function.update db.seen project through other), HasIssue reader db other event) :
    Counts reader (db.recordSeenEvents project rows through) history := by
  have hids : rows.map WorkedRow.issueID =
      (between Event.key (history project) cursor through).flatMap
        (countedOn reader db project) := by
    have hmap := congrArg (List.map Prod.snd) hrows
    rw [map_storable_filterMap, List.map_map] at hmap
    exact hmap
  have huuids : rows.map (fun row => row.row) =
      (between Event.key (history project) cursor through).flatMap
        (eventRows reader db project) := by
    have hmap := congrArg (List.map Prod.fst) hrows
    rw [map_storable_filterMap, List.map_map] at hmap
    exact hmap
  -- every row of the range is past the guard
  have hall : rows.filter (fun row => db.seen project < row.row.uuid) = rows := by
    refine List.filter_eq_self.mpr fun row hrow => ?_
    have hmem : row.row ∈ rows.map fun row => row.row := List.mem_map_of_mem hrow
    rw [huuids] at hmem
    obtain ⟨event, hevent, hof⟩ := List.mem_flatMap.mp hmem
    have hpast : cursor < event.key := (mem_between.mp hevent).2.1
    rw [uuid_of_mem_eventRows hof]
    exact decide_eq_true (hseen.trans_lt hpast)
  have hnew : ¬ (through : WithBot UUID) ≤ db.seen project := (hseen.trans_lt hcursor).not_ge
  have hext : (db.recordSeenEvents project rows through).Extends db := by
    rw [SQLite.recordSeenEvents, if_neg hnew]
    exact SQLite.extends_of_map (fun _ => SQLite.addSeen_id _ _) rfl rfl
  have hdb : db.recordSeenEvents project rows through = { db with
      issues := db.issues.map fun issue => SQLite.addSeen issue
        ((rows.filter fun row => row.issueID = issue.id).map fun row => row.row.timestamp)
      seen := Function.update db.seen project through } := by
    rw [SQLite.recordSeenEvents, if_neg hnew, hall]
  intro issue' hissue'
  have hflat : (upTo Event.key (history issue'.project)
      ((db.recordSeenEvents project rows through).seen issue'.project)).flatMap
        (countedOn reader (db.recordSeenEvents project rows through) issue'.project) =
      (upTo Event.key (history issue'.project)
        (Function.update db.seen project through issue'.project)).flatMap
          (countedOn reader db issue'.project) := by
    have hseen' : (db.recordSeenEvents project rows through).seen =
      Function.update db.seen project through := by rw [hdb]
    rw [hseen']
    exact List.flatMap_congr fun event hevent =>
      (hissues issue'.project event hevent).countedOn_eq hext
  rw [hflat]
  have hmem : issue' ∈ db.issues.map fun issue => SQLite.addSeen issue
      ((rows.filter fun row => row.issueID = issue.id).map fun row => row.row.timestamp) := by
    rw [hdb] at hissue'
    exact hissue'
  obtain ⟨issue, hissue, rfl⟩ := List.mem_map.mp hmem
  rw [SQLite.addSeen_timesSeen, SQLite.addSeen_id, SQLite.addSeen_project, List.length_map,
    hcounts issue hissue]
  have hadded : (rows.filter fun row => row.issueID = issue.id).length =
      ((between Event.key (history project) cursor through).flatMap
        (countedOn reader db project)).count issue.id := by
    rw [← hids, List.count_eq_countP, List.countP_map, List.countP_eq_length_filter]
    rfl
  rw [hadded]
  by_cases hproject : issue.project = project
  · subst hproject
    have hcut : upTo Event.key (history issue.project) through =
        upTo Event.key (history issue.project) (db.seen issue.project) ++
          between Event.key (history issue.project) (db.seen issue.project) cursor ++
          between Event.key (history issue.project) cursor through := by
      rw [upTo_append_between hincreasing hseen, upTo_append_between hincreasing hcursor.le]
    have hnone : (between Event.key (history issue.project) (db.seen issue.project) cursor).flatMap
        (countedOn reader db issue.project) = [] := List.flatMap_eq_nil_iff.mpr hgap
    rw [Function.update_self, hcut, List.flatMap_append, List.flatMap_append, hnone,
      List.append_nil, List.count_append]
  · rw [Function.update_of_ne hproject]
    have hzero : ((between Event.key (history project) cursor through).flatMap
        (countedOn reader db project)).count issue.id = 0 := by
      rw [List.count_eq_zero]
      intro hin
      obtain ⟨event, -, hevent⟩ := List.mem_flatMap.mp hin
      obtain ⟨other, hother, hid, hof⟩ := hinv.exists_issue_of_mem_countedOn hevent
      exact hproject (hinv.eq_of_id_eq hissue hother hid.symm ▸ hof)
    omega

end Counting

end SolidTrace.EventProcessing
