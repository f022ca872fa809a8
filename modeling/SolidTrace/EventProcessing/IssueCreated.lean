import SolidTrace.EventProcessing.ProcessedOnce

/-!
# Issues and their issue_created

Only the attempt that creates an Issue knows it is new, and its message is enqueued four steps
later. An Issue is then announced, or is one that the batch in progress created and still has to
announce, as long as no Stop abandons such a batch and no Issue is created by a call that returns
an error. A Stop that comes while a step retries a store error does abandon it, and the next
process finds the Issue there and announces nothing.
-/

namespace SolidTrace.EventProcessing

open Storage Transition
open LogProcessing (Outcome)

variable {J : Type*}

/-- The Issues that rows say are new. -/
def createdIssues (rows : List WorkedRow) : List ℕ :=
  (rows.filter WorkedRow.isNewIssue).map WorkedRow.issueID

/-- The Issues created by the batch in progress whose messages are not yet enqueued. -/
def Phase.created : Phase J → List ℕ
  | .idle => []
  | .working _ _ rows _ _ _ => createdIssues rows
  | .worked batch _ _ | .recorded batch _ | .inserted batch _ | .counted batch _ =>
    createdIssues batch.rows
  | .enqueued _ _ => []

/-- The worker has no batch in progress. -/
def Phase.isIdle : Phase J → Bool
  | .idle => true
  | _ => false

/-- An issue_created for an Issue is among the messages. -/
def announced (messages : List Message) (issueID : ℕ) : Prop :=
  ∃ issueIDs, .issueCreated issueIDs ∈ messages ∧ issueID ∈ issueIDs

namespace System

/-- The action ends no process but one whose worker has stopped. -/
def endsStopped (s : System J) : Action J → Prop
  | .restart => s.stopped = true ∧ s.worker.isIdle = true
  | _ => True

/-- The Issue work on an Event would create its Issue. -/
def createsIssue (reader : PayloadReader J) (s : System J) (project : ProjectID) (event : Event J) :
    Bool :=
  match reader.details event.raw with
  | some details => (s.sqlite.findIssueByFingerprint project details.fingerprint).isNone
  | none => false

/-- The action is neither a Stop that abandons a batch which created an Issue it has not announced,
nor an Issue creation that takes effect and returns an error. A batch whose Event waits to retry an
error on its content, and is not a range processed again, is not abandoned but ended there. -/
def keepsCreated (reader : PayloadReader J) (s : System J) : Action J → Prop
  | .issueWork outcome =>
    match s.worker with
    | .working attempt _ rows event _ waiting =>
      if waiting = .fresh ∧ s.stopped then attempt.again.isSome → createdIssues rows = []
      else outcome = .failedAfter → s.createsIssue reader attempt.project event = false
    | _ => True
  | .giveUp =>
    match s.worker with
    | .working ⟨_, _, none⟩ _ _ _ _ (.contentError _) => True
    | worker => worker.created = []
  | _ => True

/-- The worker is idle, and no Project that has Events has new ones. -/
def CaughtUp (s : System J) : Prop :=
  s.worker.isIdle = true ∧ ∀ w ∈ s.written, (readBatch (s.pebble w.project) w.project).2 = []

/-- Once processing has caught up, every Issue has had its issue_created. -/
def CreatedAnnounced (s : System J) : Prop :=
  s.CaughtUp → ∀ issue ∈ s.sqlite.issues, announced s.messages issue.id

end System

/-- Every Issue is announced, or was created by the batch in progress. -/
structure CreatedInv (s : System J) : Prop where
  created : ∀ id ∈ s.sqlite.issues.map Issue.id, announced s.messages id ∨ id ∈ s.worker.created
  /-- A batch without Events has no rows. -/
  rows : ∀ attempt rows event rest waiting,
    s.worker = .working attempt [] rows event rest waiting → rows = []

/-- An issue that is announced stays so as messages follow. -/
theorem announced.append {messages : List Message} {id : ℕ} (h : announced messages id)
    (more : List Message) : announced (messages ++ more) id := by
  obtain ⟨issueIDs, hmem, hid⟩ := h
  exact ⟨issueIDs, List.mem_append_left _ hmem, hid⟩

/-- The messages of a batch announce every Issue it created. -/
theorem announced_enqueueMessages {rows : List WorkedRow} {id : ℕ}
    (hid : id ∈ createdIssues rows) : announced (enqueueMessages rows) id := by
  have hsorted : id ∈ (((rows.filter WorkedRow.isNewIssue).map WorkedRow.issueID).dedup).insertionSort
      (· ≤ ·) :=
    (List.mem_insertionSort _).mpr (List.mem_dedup.mpr hid)
  have hne : (((rows.filter WorkedRow.isNewIssue).map WorkedRow.issueID).dedup).insertionSort
      (· ≤ ·) ≠ [] := List.ne_nil_of_mem hsorted
  refine ⟨_, ?_, hsorted⟩
  rw [enqueueMessages]
  simp only [if_neg hne]
  exact List.mem_append_left _ (List.mem_singleton.mpr rfl)

/-- The issues created by two lists of rows are those of each. -/
@[simp] theorem createdIssues_append (rows more : List WorkedRow) :
    createdIssues (rows ++ more) = createdIssues rows ++ createdIssues more := by
  simp [createdIssues]

/-- Ending the Issue work keeps the Issues created, unless no Event is done. -/
theorem created_finish (attempt : Attempt) (done : List (Event J)) (rows : List WorkedRow)
    (hrows : done = [] → rows = []) : (finish attempt done rows).created = createdIssues rows := by
  rw [finish]
  cases hlast : done.getLast? with
  | none =>
    rw [hrows (List.getLast?_eq_none_iff.mp hlast)]
    rfl
  | some last => rfl

/-- Going on to the next Event keeps the Issues created. -/
theorem created_advance (attempt : Attempt) (done : List (Event J)) (rows : List WorkedRow)
    (rest : List (Event J)) (hrows : done = [] → rows = []) :
    (advance attempt done rows rest).created = createdIssues rows := by
  cases rest with
  | nil => exact created_finish attempt done rows hrows
  | cons event rest => rfl

/-- Ending the Issue work leaves no Event to work on. -/
theorem finish_ne_working (attempt : Attempt) (done : List (Event J)) (rows : List WorkedRow)
    (attempt' : Attempt) (done' : List (Event J)) (rows' : List WorkedRow) (event : Event J)
    (rest : List (Event J)) (waiting : Waiting) :
    finish attempt done rows ≠ .working attempt' done' rows' event rest waiting := by
  rw [finish]
  split <;> simp

/-- The Issue work on an Event leaves the Issues there were, and at most one more, which its row
says is new. -/
theorem issueWork_issues (reader : PayloadReader J) (db : SQLite) (project : ProjectID)
    (event : Event J) (details : IssueDetails) :
    (issueWork reader db project event details).1.issues.map Issue.id =
      db.issues.map Issue.id ++ createdIssues [(issueWork reader db project event details).2] := by
  have hstatus : ∀ issueID, (db.reopenIssue issueID).issues.map Issue.id =
      db.issues.map Issue.id := by
    intro issueID
    rw [SQLite.reopenIssue, SQLite.setStatus, List.map_map]
    refine List.map_congr_left fun issue _ => ?_
    simp only [Function.comp_apply]
    split <;> rfl
  rw [issueWork]
  cases db.findIssueByFingerprint project details.fingerprint with
  | none => simp [SQLite.createIssue, createdIssues]
  | some found =>
    simp only [createdIssues, List.filter_cons, Bool.false_eq_true, if_false, List.filter_nil,
      List.map_nil, List.append_nil]
    split
    · exact hstatus found.issueID
    · rfl

namespace CreatedInv

variable {reader : PayloadReader J} {s : System J}

/-- A step that keeps the Issues, the messages and the Issues created by the batch. -/
theorem of_eq (hinv : CreatedInv s) {t : System J}
    (hissues : t.sqlite.issues.map Issue.id = s.sqlite.issues.map Issue.id)
    (hmessages : t.messages = s.messages) (hcreated : t.worker.created = s.worker.created)
    (hrows : ∀ attempt rows event rest waiting,
      t.worker = .working attempt [] rows event rest waiting → rows = []) : CreatedInv t where
  created := by
    rw [hissues, hmessages, hcreated]
    exact hinv.created
  rows := hrows

/-- A write to a store that keeps them keeps the invariant however it ends. -/
theorem settle (hinv : CreatedInv s) (wrote : System J) (next retry : Phase J)
    (hissues : wrote.sqlite.issues.map Issue.id = s.sqlite.issues.map Issue.id)
    (hmessages : wrote.messages = s.messages) (hnext : next.created = s.worker.created)
    (hretry : retry.created = s.worker.created)
    (hnextRows : ∀ attempt rows event rest waiting,
      next = .working attempt [] rows event rest waiting → rows = [])
    (hretryRows : ∀ attempt rows event rest waiting,
      retry = .working attempt [] rows event rest waiting → rows = []) (outcome : Outcome) :
    CreatedInv (s.settle wrote next retry outcome) := by
  cases outcome with
  | done => exact hinv.of_eq hissues hmessages hnext hnextRows
  | failedAfter => exact hinv.of_eq hissues hmessages hretry hretryRows
  | failedBefore => exact hinv.of_eq rfl rfl hretry hretryRows

/-- Nothing created yet. -/
theorem init : CreatedInv (System.init : System J) where
  created := by simp [System.init, SQLite.new]
  rows := by simp [System.init]

/-- A batch still at its first Event has no rows, wherever it goes on from there. -/
private theorem rows_advance (attempt : Attempt) (done : List (Event J)) (rows : List WorkedRow)
    (rest : List (Event J)) (hrows : done = [] → rows = []) :
    ∀ attempt' rows' event rest' waiting,
      advance attempt done rows rest = .working attempt' [] rows' event rest' waiting →
        rows' = [] := by
  intro attempt' rows' event rest' waiting h
  cases rest with
  | nil => exact absurd h (finish_ne_working _ _ _ _ _ _ _ _ _)
  | cons next rest =>
    simp only [advance, Phase.working.injEq] at h
    obtain ⟨-, hdone, rfl, -⟩ := h
    exact hrows hdone

/-- An Event's Issue work keeps the invariant, unless it creates an Issue and returns an error. -/
theorem work (hinv : CreatedInv s) {attempt : Attempt} {done : List (Event J)}
    {rows : List WorkedRow} {event : Event J} {rest : List (Event J)} {waiting : Waiting}
    (hworker : s.worker = .working attempt done rows event rest waiting) (outcome : Outcome)
    (hkeeps : outcome = .failedAfter → s.createsIssue reader attempt.project event = false) :
    CreatedInv (s.work reader attempt done rows event rest waiting outcome) := by
  have hcreated : s.worker.created = createdIssues rows := by
    rw [hworker]
    rfl
  have hnil : ∀ attempt' rows' event' rest' waiting' (waiting'' : Waiting),
      Phase.working attempt done rows event rest waiting'' =
        .working attempt' [] rows' event' rest' waiting' → rows' = [] := by
    intro attempt' rows' event' rest' waiting' waiting'' h
    simp only [Phase.working.injEq] at h
    obtain ⟨-, rfl, rfl, -⟩ := h
    exact hinv.rows _ _ _ _ _ hworker
  rw [System.work]
  cases hdetails : reader.details event.raw with
  | none =>
    dsimp only
    split
    · refine hinv.of_eq rfl rfl ?_ (rows_advance attempt _ rows rest (by simp))
      exact (created_advance attempt _ rows rest (by simp)).trans hcreated.symm
    · exact hinv.of_eq rfl rfl hcreated.symm fun _ _ _ _ _ h => hnil _ _ _ _ _ _ h
  | some details =>
    have hissues := issueWork_issues reader s.sqlite attempt.project event details
    cases outcome with
    | done =>
      refine ⟨fun id hid => ?_, rows_advance attempt _ _ rest (by simp)⟩
      change id ∈ (issueWork reader s.sqlite attempt.project event details).1.issues.map _ at hid
      change _ ∨ id ∈ (advance attempt _ _ rest).created
      rw [created_advance attempt _ _ rest (by simp), createdIssues_append]
      rw [hissues] at hid
      rcases List.mem_append.mp hid with hid | hid
      · refine (hinv.created id hid).imp_right fun hmem => ?_
        exact List.mem_append_left _ (hcreated ▸ hmem)
      · exact Or.inr (List.mem_append_right _ hid)
    | failedAfter =>
      have hexists := hkeeps rfl
      rw [System.createsIssue, hdetails] at hexists
      obtain ⟨found, hfound⟩ := Option.isNone_eq_false_iff.mp hexists |> Option.isSome_iff_exists.mp
      have hnone : createdIssues [(issueWork reader s.sqlite attempt.project event details).2] =
          [] := by
        rw [issueWork, hfound]
        rfl
      rw [hnone, List.append_nil] at hissues
      exact hinv.of_eq hissues rfl hcreated.symm fun _ _ _ _ _ h => hnil _ _ _ _ _ _ h
    | failedBefore =>
      exact hinv.of_eq rfl rfl hcreated.symm fun _ _ _ _ _ h => hnil _ _ _ _ _ _ h

/-- A Stop that a waiting worker notices keeps the invariant when it abandons no Issue. -/
theorem giveUp (hinv : CreatedInv s) {worker : Phase J} (hgiveUp : System.giveUp s.worker = some worker)
    (hkeeps : s.keepsCreated reader (.giveUp : Action J)) :
    CreatedInv { s with worker } := by
  have habandon : s.worker.created = [] → CreatedInv { s with worker := .idle } :=
    fun hnone => hinv.of_eq rfl rfl hnone.symm (by simp)
  rw [System.keepsCreated] at hkeeps
  cases hworker : s.worker with
  | idle =>
    rw [hworker] at hgiveUp
    simp [System.giveUp] at hgiveUp
  | working attempt done rows event rest waiting =>
    rw [hworker] at hgiveUp hkeeps
    rw [hworker] at habandon
    obtain ⟨project, after, again⟩ := attempt
    cases waiting with
    | fresh => simp [System.giveUp] at hgiveUp
    | storeError =>
      obtain rfl := Option.some.inj hgiveUp
      cases again with
      | none => exact habandon hkeeps
      | some through => exact habandon hkeeps
    | contentError errors =>
      cases again with
      | some through =>
        obtain rfl := Option.some.inj hgiveUp
        exact habandon hkeeps
      | none =>
        obtain rfl := Option.some.inj hgiveUp
        refine hinv.of_eq rfl rfl ?_
          fun _ _ _ _ _ h => absurd h (finish_ne_working _ _ _ _ _ _ _ _ _)
        rw [hworker]
        refine created_finish _ done rows fun hdone => ?_
        subst hdone
        exact hinv.rows _ _ _ _ _ hworker
  | worked batch again failing | recorded batch failing | inserted batch failing
  | counted batch failing | enqueued batch failing =>
    rw [hworker] at hgiveUp hkeeps
    rw [hworker] at habandon
    simp only [System.giveUp, Option.ite_none_right_eq_some, Option.some.injEq] at hgiveUp
    obtain ⟨-, rfl⟩ := hgiveUp
    exact habandon hkeeps

/-- Enqueueing a batch's messages announces the Issues it created. -/
theorem enqueueAll (hinv : CreatedInv s) {batch : EventBatch J} {failing : Bool}
    (hworker : s.worker = .counted batch failing) :
    CreatedInv { s with
      messages := s.messages ++ enqueueMessages batch.rows, worker := .enqueued batch false } where
  created := by
    intro id hid
    left
    rcases hinv.created id hid with hann | hmem
    · exact hann.append _
    · rw [hworker] at hmem
      obtain ⟨issueIDs, hissueIDs, hin⟩ := announced_enqueueMessages hmem
      exact ⟨issueIDs, List.mem_append_right _ hissueIDs, hin⟩
  rows := by simp

/-- Resolving an Issue keeps the invariant. -/
theorem resolveIssue (hinv : CreatedInv s) (issueID : ℕ) :
    CreatedInv { s with sqlite := s.sqlite.setStatus issueID .resolved } := by
  refine hinv.of_eq ?_ rfl rfl hinv.rows
  rw [SQLite.setStatus, List.map_map]
  refine List.map_congr_left fun issue _ => ?_
  simp only [Function.comp_apply]
  split <;> rfl

/-- A worker that reads a batch has created nothing of it. -/
theorem read (hinv : CreatedInv s) {t : System J} {project : ProjectID}
    (hstep : s.step reader (.read project) = some t) : CreatedInv t := by
  obtain ⟨hworker, rfl⟩ := System.step_read hstep
  refine hinv.of_eq rfl rfl ?_ (rows_advance _ [] [] _ fun _ => rfl)
  rw [hworker]
  exact created_advance _ [] [] _ fun _ => rfl

/-- An Event's Issue work, or a stop before it, keeps the invariant. -/
theorem workOrStop (hinv : CreatedInv s) {t : System J} {outcome : Outcome}
    (hkeeps : s.keepsCreated reader (.issueWork outcome)) (hstep : s.step reader (.issueWork outcome) = some t) :
    CreatedInv t := by
  obtain ⟨attempt, done, rows, event, rest, waiting, hworker, hcases⟩ := System.step_issueWork hstep
  rw [System.keepsCreated, hworker] at hkeeps
  dsimp only at hkeeps
  rcases hcases with ⟨hstopped, rfl⟩ | ⟨hgoing, rfl⟩
  · rw [if_pos hstopped] at hkeeps
    have hcreated : s.worker.created = createdIssues rows := by
      rw [hworker]
      rfl
    split
    next hagain => exact hinv.of_eq rfl rfl ((hkeeps hagain).symm.trans hcreated.symm) (by simp)
    next =>
      refine hinv.of_eq rfl rfl ?_ fun _ _ _ _ _ h => absurd h (finish_ne_working _ _ _ _ _ _ _ _ _)
      rw [hcreated]
      refine created_finish attempt done rows fun hdone => ?_
      subst hdone
      exact hinv.rows _ _ _ _ _ hworker
  · rw [if_neg hgoing] at hkeeps
    exact hinv.work hworker outcome hkeeps

/-- Recording a batch's range keeps the invariant. -/
theorem record (hinv : CreatedInv s) {t : System J} {outcome : Outcome}
    (hstep : s.step reader (.record outcome) = some t) : CreatedInv t := by
  obtain ⟨batch, again, failing, hworker, ⟨-, rfl⟩ | ⟨-, rfl⟩⟩ := System.step_record hstep
  · exact hinv.of_eq rfl rfl (by simp only [hworker, Phase.created]) (by simp)
  · exact hinv.settle (s.recordEventRange batch) (.recorded batch false) (.worked batch again true)
      rfl rfl (by simp only [hworker, Phase.created]) (by simp only [hworker, Phase.created])
      (by simp) (by simp) outcome

/-- Inserting a batch's rows keeps the invariant. -/
theorem insert (hinv : CreatedInv s) {t : System J} {outcome : Outcome}
    (hstep : s.step reader (.insert outcome) = some t) : CreatedInv t := by
  obtain ⟨batch, failing, hworker, rfl⟩ := System.step_insert hstep
  exact hinv.settle (s.insertEvents batch) (.inserted batch false) (.recorded batch true) rfl rfl
    (by simp only [hworker, Phase.created]) (by simp only [hworker, Phase.created]) (by simp)
    (by simp) outcome

/-- Counting a batch's rows adds no Issue. -/
theorem count (hinv : CreatedInv s) {t : System J} {outcome : Outcome}
    (hstep : s.step reader (.count outcome) = some t) : CreatedInv t := by
  obtain ⟨batch, failing, hworker, ⟨-, rfl⟩ | ⟨-, rfl⟩⟩ := System.step_count hstep
  · exact hinv.of_eq rfl rfl (by simp only [hworker, Phase.created]) (by simp)
  · refine hinv.settle (s.recordSeenEvents batch) (.counted batch false) (.inserted batch true) ?_
      rfl (by simp only [hworker, Phase.created]) (by simp only [hworker, Phase.created])
      (by simp) (by simp) outcome
    rw [System.recordSeenEvents, SQLite.recordSeenEvents]
    split
    · rfl
    · rw [List.map_map]
      exact List.map_congr_left fun issue _ => SQLite.addSeen_id issue _

/-- Enqueueing a batch's messages announces the Issues it created, once all of them are out. -/
theorem enqueue (hinv : CreatedInv s) {t : System J} {failsAfter : Option ℕ}
    (hstep : s.step reader (.enqueue failsAfter) = some t) : CreatedInv t := by
  obtain ⟨batch, failing, hworker, ⟨-, rfl⟩ | ⟨sent, -, rfl⟩⟩ := System.step_enqueue hstep
  · exact hinv.enqueueAll hworker
  · refine ⟨fun id hid => ?_, by simp⟩
    refine (hinv.created id hid).imp (fun hann => hann.append _) fun hmem => ?_
    rw [hworker] at hmem
    exact hmem

/-- Moving the cursor keeps the invariant. -/
theorem moveCursor (hinv : CreatedInv s) {t : System J} {outcome : Outcome}
    (hstep : s.step reader (.moveCursor outcome) = some t) : CreatedInv t := by
  obtain ⟨batch, failing, hworker, rfl⟩ := System.step_moveCursor hstep
  exact hinv.settle (s.setProcessingCursor batch) .idle (.enqueued batch true) rfl rfl
    (by simp only [hworker, Phase.created]) (by simp only [hworker, Phase.created]) (by simp)
    (by simp) outcome

/-- The start of a process after one that stopped keeps the invariant. -/
theorem restart (hinv : CreatedInv s) (hidle : s.worker.isIdle = true) : CreatedInv { s with
    worker := .idle, refusing := false, stopped := false, process := s.process + 1 } := by
  refine hinv.of_eq rfl rfl ?_ (by simp)
  cases hworker : s.worker with
  | idle => rfl
  | working | worked | recorded | inserted | counted | enqueued =>
    simp [hworker, Phase.isIdle] at hidle

/-- Every step that ends no process but a stopped one, and leaves no created Issue unannounced,
keeps the invariant. -/
theorem step (hinv : CreatedInv s) {t : System J} {a : Action J} (hends : s.endsStopped a)
    (hkeeps : s.keepsCreated reader a) (hstep : s.step reader a = some t) : CreatedInv t := by
  cases a with
  | writeEvent project raw newV7 =>
    obtain rfl := Option.some.inj hstep
    rw [System.writeEvent]
    split
    · exact hinv
    · exact hinv.of_eq rfl rfl rfl hinv.rows
  | stopWrites | stop =>
    obtain rfl := Option.some.inj hstep
    exact hinv.of_eq rfl rfl rfl hinv.rows
  | resolveIssue issueID =>
    obtain rfl := Option.some.inj hstep
    exact hinv.resolveIssue issueID
  | read project => exact hinv.read hstep
  | issueWork outcome => exact hinv.workOrStop hkeeps hstep
  | record outcome => exact hinv.record hstep
  | insert outcome => exact hinv.insert hstep
  | count outcome => exact hinv.count hstep
  | enqueue failsAfter => exact hinv.enqueue hstep
  | moveCursor outcome => exact hinv.moveCursor hstep
  | giveUp =>
    obtain ⟨worker, hgiveUp, rfl⟩ := System.step_giveUp hstep
    exact hinv.giveUp hgiveUp hkeeps
  | restart =>
    obtain rfl := Option.some.inj hstep
    exact hinv.restart hends.2

end CreatedInv

/-- Between batches every Issue has had its issue_created, in every run of stops, restarts and
store errors in which no Stop abandons a batch that created an Issue it has not announced. -/
theorem issueCreated_enqueued (reader : PayloadReader J) (s : System J)
    (hrun : Reaches (System.step reader)
      (fun s a => s.endsStopped a ∧ s.keepsCreated reader a) System.init s) :
    s.CreatedAnnounced := by
  have hinv : CreatedInv s := hrun.invariant CreatedInv.init
    fun _ _ _ hinv hallowed hstep => hinv.step hallowed.1 hallowed.2 hstep
  intro hcaught issue hissue
  refine (hinv.created issue.id (List.mem_map_of_mem hissue)).resolve_right fun hmem => ?_
  have hidle : s.worker.isIdle = true := hcaught.1
  cases hworker : s.worker with
  | idle => simp [hworker, Phase.created] at hmem
  | working | worked | recorded | inserted | counted | enqueued =>
    simp [hworker, Phase.isIdle] at hidle

instance (s : System J) (a : Action J) : Decidable (s.endsStopped a) :=
  match a with
  | .restart => inferInstanceAs (Decidable (_ ∧ _))
  | .writeEvent .. | .stopWrites | .resolveIssue _ | .read _ | .issueWork _ | .record _ | .insert _
  | .count _ | .enqueue _ | .moveCursor _ | .stop | .giveUp => isTrue trivial

instance (reader : PayloadReader J) (s : System J) (a : Action J) :
    Decidable (s.keepsCreated reader a) := by
  unfold System.keepsCreated
  split
  · split <;> infer_instance
  · split <;> infer_instance
  · infer_instance

/-- The batch of an odd Event is cut short by a stop while the unreadable Event behind it waits to
be retried, and stopped again after its message is out, so that the next process handles it again
and goes on to an even one. -/
def stopsWhileWaiting : List (Action ℕ) :=
  [.writeEvent 7 1 (idAt 1000), .writeEvent 7 0 (idAt 1001), .writeEvent 7 2 (idAt 1002), .read 7,
    .issueWork .failedBefore, .issueWork .done, .issueWork .done, .stop, .giveUp,
    .record .failedAfter, .record .done, .insert .failedAfter, .insert .done, .count .done,
    .enqueue (some 0), .enqueue none, .moveCursor .failedBefore, .giveUp, .restart, .read 7,
    .issueWork .failedAfter, .issueWork .done, .record .done, .insert .done, .count .done,
    .enqueue none, .moveCursor .done, .read 7, .issueWork .done, .issueWork .done, .issueWork .done,
    .issueWork .done, .issueWork .done, .record .done, .insert .done, .count .done, .enqueue none,
    .moveCursor .done, .read 7]

/-- The run that stops while it waits is one. -/
private theorem stopsWhileWaiting_runs : (Transition.run (System.step numbers)
    (fun s a => s.endsStopped a ∧ s.keepsCreated numbers a) System.init
    stopsWhileWaiting).isSome = true := by
  decide

/-- Both Issues are announced, each in the batch that created it. -/
theorem issueCreated_enqueued_stopsWhileWaiting : ∃ s : System ℕ,
    Transition.run (System.step numbers) (fun s a => s.endsStopped a ∧ s.keepsCreated numbers a)
      System.init stopsWhileWaiting = some s ∧ s.CaughtUp ∧
      s.messages = [.issueCreated [1], .issueReceivedEvent [1], .issueCreated [2]] ∧
      s.CreatedAnnounced := by
  have hrun := (Option.some_get stopsWhileWaiting_runs).symm
  exact ⟨_, hrun, by unfold System.CaughtUp; decide, by decide,
    issueCreated_enqueued numbers _ (reaches_of_run hrun)⟩

/-- An Event creates an Issue, the insert of its row fails, the process is stopped while it waits
to retry, and the next one processes the range again. -/
def stopWhileInsertFails : List (Action ℕ) :=
  [.writeEvent 7 1 (idAt 1000), .read 7, .issueWork .done, .record .done, .insert .failedBefore,
    .stop, .giveUp, .restart, .read 7, .issueWork .done, .record .done, .insert .done, .count .done,
    .enqueue none, .moveCursor .done]

/-- The run that stops while its insert fails is one. -/
private theorem stopWhileInsertFails_runs : (Transition.run (System.step numbers)
    (fun s a => s.idsIncrease a ∧ s.endsStopped a) System.init
    stopWhileInsertFails).isSome = true := by
  decide

/-- The next process finds the Issue and announces no new one: a graceful stop can lose an
issue_created. -/
theorem not_forall_createdAnnounced : ¬ ∀ s : System ℕ,
    Reaches (System.step numbers) (fun s a => s.idsIncrease a ∧ s.endsStopped a) System.init s →
      s.CreatedAnnounced := by
  intro hall
  have hrun := (Option.some_get stopWhileInsertFails_runs).symm
  have hcreated := hall _ (reaches_of_run hrun)
  obtain ⟨issueIDs, hmem, -⟩ := hcreated (by unfold System.CaughtUp; decide) _
    (List.head_mem (by decide))
  have hmessages : (Option.get _ stopWhileInsertFails_runs).messages =
      [.issueReceivedEvent [1]] := by decide
  rw [hmessages] at hmem
  simp at hmem

end SolidTrace.EventProcessing
