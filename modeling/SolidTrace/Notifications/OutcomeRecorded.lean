import SolidTrace.Notifications.Outbox

/-!
# No Notification stays in processing

A row in processing is one that a running tick still has to record the outcome of. So once every
tick has ended, each row is final with its outcome recorded or a later tick picks it up, as long
as no process is killed while a row of its tick is in processing.
-/

namespace SolidTrace.Notifications

/-- Whether an operation gives a row an outcome, now or in the operations it becomes. -/
def Op.settles (id : ID) : Op → Prop
  | .updateAll ids status _ => id ∈ ids ∧ status ≠ .processing
  | .deliverMessage ids => id ∈ ids
  | .deliverMonitorMessage id' _ => id = id'
  | _ => False

instance (id : ID) : (op : Op) → Decidable (op.settles id)
  | .updateAll ids status _ => inferInstanceAs (Decidable (id ∈ ids ∧ status ≠ .processing))
  | .deliverMessage ids => inferInstanceAs (Decidable (id ∈ ids))
  | .deliverMonitorMessage id' _ => inferInstanceAs (Decidable (id = id'))
  | .pluck => isFalse nofun
  | .findIntegration _ => isFalse nofun
  | .checkWindow _ => isFalse nofun
  | .loadIssueRows _ => isFalse nofun
  | .loadMonitorRows _ => isFalse nofun
  | .updateCounters _ => isFalse nofun
  | .chain _ => isFalse nofun

/-- Whether some operation of a list gives a row an outcome. -/
def Settles (ops : List Op) (id : ID) : Prop := ∃ op ∈ ops, op.settles id

instance (ops : List Op) (id : ID) : Decidable (Settles ops id) :=
  inferInstanceAs (Decidable (∃ op ∈ ops, op.settles id))

/-- An outcome is recorded with its reason, unless the row was sent. -/
def Op.hasReason : Op → Prop
  | .updateAll _ status error => (status = .failed ∨ status = .skipped → error.isSome) ∧ status ≠ .pending
  | _ => True

/-- Rows that start processing get their outcome later, and every failure its reason. -/
def Sound : List Op → Prop
  | [] => True
  | op :: rest => op.hasReason ∧ Sound rest ∧
    match op with
    | .updateAll ids .processing _ => ∀ id ∈ ids, Settles rest id
    | _ => True

section Ops

variable {ops rest : List Op} {id : ID} {ids : List ID}

/-- What settles a row does so whatever follows. -/
theorem Settles.append_left (h : Settles ops id) (rest : List Op) : Settles (ops ++ rest) id := by
  obtain ⟨op, hop, hsettles⟩ := h
  exact ⟨op, List.mem_append_left _ hop, hsettles⟩

/-- What settles a row does so whatever comes before. -/
theorem Settles.append_right (ops : List Op) (h : Settles rest id) : Settles (ops ++ rest) id := by
  obtain ⟨op, hop, hsettles⟩ := h
  exact ⟨op, List.mem_append_right _ hop, hsettles⟩

/-- Two sound plans one after the other are sound. -/
theorem Sound.append (hops : Sound ops) (hrest : Sound rest) : Sound (ops ++ rest) := by
  induction ops with
  | nil => exact hrest
  | cons op ops ih =>
    obtain ⟨hreason, hsound, hlater⟩ := hops
    refine ⟨hreason, ih hsound, ?_⟩
    split at hlater
    · exact fun id hid => (hlater id hid).append_left rest
    · trivial

/-- Operations that start no processing are sound when each has its reason. -/
theorem sound_of_forall (h : ∀ op ∈ ops, op.hasReason ∧ ∀ ids error, op ≠ .updateAll ids .processing error) :
    Sound ops := by
  induction ops with
  | nil => trivial
  | cons op ops ih =>
    obtain ⟨hop, hne⟩ := h op List.mem_cons_self
    refine ⟨hop, ih fun op' hop' => h op' (List.mem_cons_of_mem _ hop'), ?_⟩
    split
    · exact absurd rfl (hne _ _)
    · trivial

/-- Rows marked with an outcome are settled. -/
theorem settles_markRows {status : Status} (hstatus : status ≠ .processing) (error : Option String)
    (hid : id ∈ ids) : Settles (markRows ids status error) id := by
  rw [markRows, if_neg hstatus]
  exact ⟨_, List.mem_singleton_self _, hid, hstatus⟩

/-- Marking rows sent is sound. -/
theorem sound_markRows_sent (ids : List ID) : Sound (markRows ids .sent none) := by
  simp [markRows, Sound, Op.hasReason]

/-- Marking rows failed or skipped with a reason is sound. -/
theorem sound_markRows_reason (ids : List ID) {status : Status} (hstatus : status = .failed ∨ status = .skipped)
    (message : String) : Sound (markRows ids status (some message)) := by
  obtain rfl | rfl := hstatus <;> simp [markRows, Sound, Op.hasReason]

/-- Rows may start processing before operations that settle them all. -/
theorem sound_markRows_processing (hrest : Sound rest) (hids : ∀ id ∈ ids, Settles rest id) :
    Sound (markRows ids .processing none ++ rest) := by
  refine ⟨trivial, ⟨?_, hrest, hids⟩, trivial⟩
  simp [Op.hasReason]

end Ops

section Deliveries

/-- Adding values one after another, each once, loses none. -/
theorem mem_foldl_insert {α : Type*} [DecidableEq α] {x : α} (xs kept : List α) :
    x ∈ xs.foldl (fun kept y => if kept.contains y then kept else kept ++ [y]) kept ↔
      x ∈ kept ∨ x ∈ xs := by
  induction xs generalizing kept with
  | nil => simp
  | cons y ys ih =>
    rw [List.foldl_cons, ih, List.mem_cons]
    by_cases hy : y ∈ kept
    · by_cases hxy : x = y
      · simp [hxy, hy]
      · simp [hxy, hy]
    · simp [hy, or_assoc]

/-- Every Issue row is in one of the messages. -/
theorem settles_issueMessages {rows : List Notification} {row : Notification} (hrow : row ∈ rows) :
    Settles (System.issueMessages rows) row.id := by
  have hkind : row.kind ∈ System.kindsOf rows := by
    rw [System.kindsOf, mem_foldl_insert]
    exact Or.inr (List.mem_map_of_mem hrow)
  have hsame : row ∈ rows.filter fun r => r.kind == row.kind := by simp [hrow]
  by_cases hbatched : row.kind = .issueCreated
  · refine ⟨.deliverMessage _, List.mem_flatMap.mpr ⟨row.kind, hkind, ?_⟩, List.mem_map_of_mem hsame⟩
    rw [if_pos hbatched]
    exact List.mem_singleton_self _
  · refine ⟨.deliverMessage [row.id], List.mem_flatMap.mpr ⟨row.kind, hkind, ?_⟩,
      List.mem_singleton_self _⟩
    rw [if_neg hbatched]
    exact List.mem_map.mpr ⟨row, hsame, rfl⟩

/-- The messages of issues are sound. -/
theorem sound_issueMessages (rows : List Notification) : Sound (System.issueMessages rows) := by
  refine sound_of_forall fun op hop => ?_
  obtain ⟨kind, -, hop⟩ := List.mem_flatMap.mp hop
  split at hop
  · rw [List.mem_singleton.mp hop]
    exact ⟨trivial, by simp⟩
  · obtain ⟨row, -, rfl⟩ := List.mem_map.mp hop
    exact ⟨trivial, by simp⟩

/-- Rows whose subject is gone are skipped, with the reason. -/
theorem sound_markRows_gone (gone : List Notification) (message : String) :
    Sound (if gone.isEmpty then [] else
      markRows (gone.map Notification.id) .skipped (some message)) := by
  split
  · trivial
  · exact sound_markRows_reason _ (Or.inr rfl) message

/-- Delivering the rows of issues is sound. -/
theorem sound_deliverIssueRows (s : System) (ids : List ID) : Sound (s.deliverIssueRows ids) := by
  rw [System.deliverIssueRows, List.append_assoc]
  refine (sound_markRows_gone _ _).append (sound_markRows_processing (sound_issueMessages _) ?_)
  intro id hid
  obtain ⟨row, hrow, rfl⟩ := List.mem_map.mp hid
  exact settles_issueMessages hrow

/-- Delivering the rows of a Monitor is sound. -/
theorem sound_deliverMonitorRows (s : System) (ids : List ID) :
    Sound (s.deliverMonitorRows ids) := by
  refine (sound_markRows_gone _ _).append (sound_of_forall fun op hop => ?_)
  obtain ⟨group, -, rfl⟩ := List.mem_map.mp hop
  exact ⟨trivial, by simp⟩

/-- What follows a message is sound. -/
theorem sound_messageOutcome (ids : List ID) (outcome : Outcome) :
    Sound (System.messageOutcome ids outcome) := by
  cases outcome with
  | delivered => exact sound_markRows_sent ids
  | notConfigured message => exact sound_markRows_reason ids (Or.inr rfl) message
  | error message => exact sound_markRows_reason ids (Or.inl rfl) message

/-- What follows a Monitor's message is sound. -/
theorem sound_monitorOutcome (id : ID) (rest : List ID) (outcome : Outcome) :
    Sound (System.monitorOutcome id rest outcome) := by
  have hchain : Sound [.chain rest] := ⟨trivial, trivial, trivial⟩
  cases outcome with
  | delivered => exact (sound_markRows_sent [id]).append hchain
  | notConfigured message => exact (sound_markRows_reason [id] (Or.inr rfl) message).append hchain
  | error message => exact sound_markRows_reason [id] (Or.inl rfl) message

/-- Whatever a tick does next leaves it sound. -/
theorem sound_perform (s : System) (integration : ID) (outcome : Outcome) (op : Op) :
    Sound (s.perform integration outcome op).2 := by
  cases op with
  | pluck =>
    simp only [System.perform]
    split
    · trivial
    · exact ⟨trivial, trivial, trivial⟩
  | findIntegration ids =>
    simp only [System.perform]
    split
    · exact sound_markRows_reason ids (Or.inr rfl) _
    · exact sound_markRows_reason ids (Or.inr rfl) _
    · exact ⟨trivial, trivial, trivial⟩
  | checkWindow ids =>
    simp only [System.perform]
    split
    · trivial
    · exact ⟨trivial, ⟨trivial, trivial, trivial⟩, trivial⟩
  | loadIssueRows ids => exact sound_deliverIssueRows s ids
  | loadMonitorRows ids => exact sound_deliverMonitorRows s ids
  | updateCounters ids => trivial
  | updateAll ids status error => trivial
  | deliverMessage ids => exact sound_messageOutcome ids outcome
  | chain ids =>
    cases ids with
    | nil => trivial
    | cons id rest =>
      refine sound_markRows_processing ⟨trivial, trivial, trivial⟩ fun id' hid' => ?_
      exact ⟨_, List.mem_singleton_self _, List.mem_singleton.mp hid'⟩
  | deliverMonitorMessage id rest => exact sound_monitorOutcome id rest outcome

/-- A call of the provider becomes operations that settle the rows it was to settle. -/
theorem settles_perform {s : System} {integration id : ID} {outcome : Outcome} {op : Op}
    (hop : op.settles id) (hcall : ∀ ids status error, op ≠ .updateAll ids status error) :
    Settles (s.perform integration outcome op).2 id := by
  cases op with
  | deliverMessage ids =>
    cases outcome with
    | delivered => exact settles_markRows (show Status.sent ≠ .processing by decide) none hop
    | notConfigured message => exact settles_markRows (show Status.skipped ≠ .processing by decide) _ hop
    | error message => exact settles_markRows (show Status.failed ≠ .processing by decide) _ hop
  | deliverMonitorMessage id' rest =>
    have hid : id ∈ [id'] := List.mem_singleton.mpr hop
    cases outcome with
    | delivered => exact (settles_markRows (show Status.sent ≠ .processing by decide) none hid).append_left _
    | notConfigured message =>
      exact (settles_markRows (show Status.skipped ≠ .processing by decide) _ hid).append_left _
    | error message => exact settles_markRows (show Status.failed ≠ .processing by decide) _ hid
  | updateAll ids status error => exact absurd rfl (hcall ids status error)
  | _ => exact hop.elim

end Deliveries

namespace System

variable {s t : System}

/-- A row's outcome is recorded: when it was sent, or why it was not. -/
def Recorded (row : Notification) : Prop :=
  (row.status = .sent → row.sentAt.isSome) ∧
    (row.status = .failed ∨ row.status = .skipped → row.errorMessage.isSome)

structure Inv (s : System) : Prop where
  processing : ∀ row ∈ s.rows, row.status = .processing →
    ∃ tick ∈ s.ticks, Settles tick.ops row.id
  sound : ∀ tick ∈ s.ticks, Sound tick.ops
  recorded : ∀ row ∈ s.rows, Recorded row

/-- The invariant holds before anything is written. -/
theorem Inv.init : Inv init where
  processing := by simp [System.init]
  sound := by simp [System.init]
  recorded := by simp [System.init]

/-- Only the statements of `mark_rows` change rows. -/
theorem perform_rows {integration : ID} {outcome : Outcome} {op : Op}
    (hcounters : ∀ ids, op ≠ .updateCounters ids)
    (hall : ∀ ids status error, op ≠ .updateAll ids status error) :
    (s.perform integration outcome op).1 = s.rows := by
  cases op with
  | updateCounters ids => exact absurd rfl (hcounters ids)
  | updateAll ids status error => exact absurd rfl (hall ids status error)
  | findIntegration ids =>
    simp only [perform]
    split <;> rfl
  | checkWindow ids =>
    simp only [perform]
    split <;> rfl
  | chain ids => cases ids <;> rfl
  | _ => rfl

/-- What a tick does to a row: nothing that shows, or to set its status. -/
theorem mem_perform {integration : ID} {outcome : Outcome} {op : Op} {row : Notification}
    (hrow : row ∈ (s.perform integration outcome op).1) :
    (∃ old ∈ s.rows, old.id = row.id ∧ old.status = row.status ∧ (Recorded old → Recorded row) ∧
      ∀ ids status error, op = .updateAll ids status error → row.id ∉ ids) ∨
    ∃ ids status error, op = .updateAll ids status error ∧ row.id ∈ ids ∧
      ∃ old ∈ s.rows, row = old.mark s.now status error := by
  by_cases hcounters : ∃ ids, op = .updateCounters ids
  · obtain ⟨ids, rfl⟩ := hcounters
    obtain ⟨old, hold, rfl⟩ := List.mem_map.mp hrow
    left
    refine ⟨old, hold, ?_, ?_, ?_, by simp⟩ <;> split <;> first | rfl | exact id
  · by_cases hall : ∃ ids status error, op = .updateAll ids status error
    · obtain ⟨ids, status, error, rfl⟩ := hall
      obtain ⟨old, hold, rfl⟩ := List.mem_map.mp hrow
      by_cases hid : old.id ∈ ids
      · right
        refine ⟨ids, status, error, rfl, ?_, old, hold, ?_⟩ <;> simp [hid, Notification.mark]
      · left
        simp only [List.contains_eq_mem, hid, decide_false, Bool.false_eq_true, if_false]
        refine ⟨old, hold, rfl, rfl, id, ?_⟩
        intro ids' status' error' heq
        cases heq
        exact hid
    · push Not at hcounters hall
      rw [perform_rows hcounters hall] at hrow
      exact Or.inl ⟨row, hrow, rfl, rfl, id, fun ids status error h => absurd h (hall ids status error)⟩

/-- A row that is marked has its outcome recorded. -/
theorem recorded_mark {ids : List ID} {status : Status} {error : Option String} (now : ℤ)
    (old : Notification) (hreason : (Op.updateAll ids status error).hasReason) :
    Recorded (old.mark now status error) := by
  constructor
  · intro hsent
    have : status = .sent := hsent
    simp [Notification.mark, this]
  · exact hreason.1

/-- A tick that goes on still settles what it was to settle, but for the rows it has just given
their outcome. -/
theorem Inv.perform (hinv : Inv s) {tick : ℕ} {outcome : Outcome}
    (hstep : s.step (.perform tick outcome) = some t) : Inv t := by
  simp only [step] at hstep
  split at hstep
  · rename_i integration op rest htick
    obtain rfl := Option.some.inj hstep
    have hmem : ⟨integration, op :: rest⟩ ∈ s.ticks := List.mem_of_getElem? htick
    obtain ⟨hreason, hrest, hlater⟩ := hinv.sound _ hmem
    set next := (s.perform integration outcome op).2 with hnext
    have hset : ⟨integration, next ++ rest⟩ ∈ s.ticks.set tick ⟨integration, next ++ rest⟩ := by
      obtain ⟨hlt, -⟩ := List.getElem?_eq_some_iff.mp htick
      exact List.mem_set hlt _
    constructor
    · intro row hrow hprocessing
      obtain ⟨old, hold, hid, hstatus, -, hnot⟩ | ⟨ids, status, error, rfl, hid, old, -, rfl⟩ :=
        mem_perform hrow
      · obtain ⟨other, hother, hsettles⟩ := hinv.processing old hold (hstatus.trans hprocessing)
        rw [hid] at hsettles
        obtain ⟨j, hj⟩ := List.getElem?_of_mem hother
        by_cases hsame : tick = j
        · subst hsame
          obtain rfl := Option.some.inj (htick.symm.trans hj)
          obtain ⟨op', hop', hsettled⟩ := hsettles
          obtain rfl | hop' := List.mem_cons.mp hop'
          · -- An outcome being recorded is the row's status already, so only a call is left.
            refine ⟨_, hset, (settles_perform hsettled fun ids status error heq => ?_).append_left _⟩
            subst heq
            exact hnot ids status error rfl hsettled.1
          · exact ⟨_, hset, Settles.append_right _ ⟨op', hop', hsettled⟩⟩
        · exact ⟨other, List.mem_of_getElem? ((List.getElem?_set_ne hsame).trans hj), hsettles⟩
      · have hstatus : status = .processing := hprocessing
        subst hstatus
        exact ⟨_, hset, (hlater _ hid).append_right _⟩
    · intro other hother
      obtain hother | rfl := List.mem_or_eq_of_mem_set hother
      · exact hinv.sound other hother
      · exact (sound_perform s integration outcome op).append hrest
    · intro row hrow
      obtain ⟨old, hold, -, -, hrecorded, -⟩ | ⟨ids, status, error, rfl, -, old, -, rfl⟩ :=
        mem_perform hrow
      · exact hrecorded (hinv.recorded old hold)
      · exact recorded_mark s.now old hreason
  · cases hstep

/-- Rows that are new, and rows that go, leave the invariant as it is. -/
theorem Inv.of_rows (hinv : Inv s) (hticks : t.ticks = s.ticks)
    (hrows : ∀ row ∈ t.rows, row ∈ s.rows ∨ row.status = .pending) : Inv t := by
  constructor
  · intro row hrow hprocessing
    obtain hold | hnew := hrows row hrow
    · rw [hticks]
      exact hinv.processing row hold hprocessing
    · rw [hnew] at hprocessing
      cases hprocessing
  · rw [hticks]
    exact hinv.sound
  · intro row hrow
    obtain hold | hnew := hrows row hrow
    · exact hinv.recorded row hold
    · simp [Recorded, hnew]

/-- A row is enqueued as pending. -/
theorem mem_enqueue {integration : ID} {subject : Subject} {kind : Kind} {row : Notification}
    (hrow : row ∈ (s.enqueue integration subject kind).rows) :
    row ∈ s.rows ∨ row.status = .pending := by
  obtain hrow | hrow := List.mem_append.mp hrow
  · exact Or.inl hrow
  · rw [List.mem_singleton.mp hrow]
    exact Or.inr rfl

/-- Enqueueing a row keeps the invariant. -/
theorem Inv.enqueue (hinv : Inv s) (integration : ID) (subject : Subject) (kind : Kind) :
    Inv (s.enqueue integration subject kind) :=
  hinv.of_rows rfl fun _ => mem_enqueue

/-- Enqueueing the changes of a Monitor keeps the invariant. -/
theorem Inv.monitorChanges (hinv : Inv s) (monitor : ID) (changes : List (Kind × String))
    (integrations : List ID) : Inv (s.monitorChanges monitor changes integrations) := by
  simp only [System.monitorChanges]
  generalize (changes.flatMap fun c => (integrations.filter fun id => s.isActive id = some true).map
    fun id => (c, id)) = entries
  induction entries generalizing s with
  | nil => exact hinv
  | cons entry entries ih => exact ih (hinv.enqueue entry.2 _ entry.1.1)

/-- A tick that has no row in processing to settle may end. -/
theorem Inv.eraseTick (hinv : Inv s) {tick : ℕ}
    (hidle : ∀ ended ∈ s.ticks[tick]?, ∀ row ∈ s.rows, row.status = .processing →
      ¬ Settles ended.ops row.id) : Inv { s with ticks := s.ticks.eraseIdx tick } := by
  refine { hinv with processing := ?_, sound := ?_ }
  · intro row hrow hprocessing
    obtain ⟨other, hother, hsettles⟩ := hinv.processing row hrow hprocessing
    obtain ⟨j, hj⟩ := List.getElem?_of_mem hother
    refine ⟨other, List.mem_eraseIdx_iff_getElem?.mpr ⟨j, ?_, hj⟩, hsettles⟩
    rintro rfl
    exact hidle other hj row hrow hprocessing hsettles
  · exact fun other hother => hinv.sound other (List.mem_of_mem_eraseIdx hother)

/-- No process ends while a row its tick has to settle is in processing. -/
def killsIdle (s : System) : Action → Prop
  | .kill tick => ∀ ended ∈ s.ticks[tick]?, ∀ row ∈ s.rows, row.status = .processing →
    ¬ Settles ended.ops row.id
  | _ => True

instance (s : System) : (a : Action) → Decidable (s.killsIdle a)
  | .kill tick => inferInstanceAs (Decidable (∀ ended ∈ s.ticks[tick]?, ∀ row ∈ s.rows,
      row.status = .processing → ¬ Settles ended.ops row.id))
  | .pass _ => isTrue trivial
  | .addIntegration _ => isTrue trivial
  | .setActive _ _ => isTrue trivial
  | .deleteIntegration _ => isTrue trivial
  | .addIssue _ => isTrue trivial
  | .deleteIssue _ => isTrue trivial
  | .addMonitor _ => isTrue trivial
  | .deleteMonitor _ => isTrue trivial
  | .record _ _ _ => isTrue trivial
  | .monitorChanges _ _ _ => isTrue trivial
  | .startTick _ => isTrue trivial
  | .perform _ _ => isTrue trivial
  | .endTick _ => isTrue trivial
  | .cleanUp => isTrue trivial

/-- Every step that meets the condition keeps the invariant. -/
theorem Inv.step (hinv : Inv s) {a : Action} (hidle : s.killsIdle a) (hstep : s.step a = some t) :
    Inv t := by
  cases a with
  | perform tick outcome => exact hinv.perform hstep
  | record integration kind issue =>
    simp only [System.step] at hstep
    split at hstep
    · obtain rfl := Option.some.inj hstep
      exact hinv.enqueue integration (.issue issue) kind
    · cases hstep
  | monitorChanges monitor changes integrations =>
    obtain rfl := Option.some.inj hstep
    exact hinv.monitorChanges monitor changes integrations
  | startTick integration =>
    obtain rfl := Option.some.inj hstep
    refine { hinv with processing := ?_, sound := ?_ }
    · intro row hrow hprocessing
      obtain ⟨other, hother, hsettles⟩ := hinv.processing row hrow hprocessing
      exact ⟨other, List.mem_append_left _ hother, hsettles⟩
    · intro other hother
      obtain hother | hother := List.mem_append.mp hother
      · exact hinv.sound other hother
      · rw [List.mem_singleton.mp hother]
        exact ⟨trivial, trivial, trivial⟩
  | endTick tick =>
    simp only [System.step] at hstep
    split at hstep
    · rename_i integration htick
      obtain rfl := Option.some.inj hstep
      refine hinv.eraseTick fun ended hended row _ _ hsettles => ?_
      obtain rfl := Option.some.inj (htick.symm.trans hended)
      obtain ⟨op, hop, -⟩ := hsettles
      cases hop
    · cases hstep
  | kill tick =>
    simp only [System.step] at hstep
    split at hstep
    · obtain rfl := Option.some.inj hstep
      exact hinv.eraseTick hidle
    · cases hstep
  | cleanUp =>
    obtain rfl := Option.some.inj hstep
    exact hinv.of_rows rfl fun row hrow => Or.inl (List.mem_filter.mp hrow).1
  | _ =>
    obtain rfl := Option.some.inj hstep
    exact hinv.of_rows rfl fun row hrow => Or.inl hrow

/-- A row is final with its outcome recorded, or a later tick picks it up. -/
def HasOutcome (now : ℤ) (row : Notification) : Prop :=
  match row.status with
  | .pending => row.deliverable now
  | .processing => False
  | .sent => row.sentAt.isSome
  | .failed => row.errorMessage.isSome ∧ (row.deliverable now ∨ row.exhausted now)
  | .skipped => row.errorMessage.isSome

/-- A failed row is retried until it is exhausted. -/
theorem deliverable_or_exhausted (now : ℤ) {row : Notification} (hfailed : row.status = .failed) :
    row.deliverable now ∨ row.exhausted now := by
  unfold Notification.deliverable Notification.exhausted
  rw [hfailed]
  cases row.subject with
  | issue id =>
    simp only [decide_eq_true_eq]
    omega
  | monitor id group kept =>
    simp only [decide_eq_true_eq]
    omega

/-- In every run in which no process is killed in the middle of a delivery, whenever no tick is
running no row is in processing: each is final with its outcome recorded, or is picked up again. -/
theorem notifications_haveOutcome (hrun : Transition.Reaches step killsIdle init s)
    (hended : s.ticks = []) : ∀ row ∈ s.rows, HasOutcome s.now row := by
  intro row hrow
  have hinv : Inv s := hrun.invariant Inv.init fun _ _ _ hinv hidle hstep => hinv.step hidle hstep
  have hrecorded := hinv.recorded row hrow
  unfold HasOutcome
  split
  · simp_all [Notification.deliverable]
  · obtain ⟨tick, htick, -⟩ := hinv.processing row hrow ‹_›
    rw [hended] at htick
    cases htick
  · exact hrecorded.1 ‹_›
  · exact ⟨hrecorded.2 (Or.inl ‹_›), deliverable_or_exhausted s.now ‹_›⟩
  · exact hrecorded.2 (Or.inr ‹_›)

/-- Two Issues and a Monitor's two changes: the first tick sends the Issues and is killed between
two rows of the chain. A later tick fails on the row that is left. -/
def killedBetween : List Action :=
  [Action.addIntegration 1, .addIssue 5, .addIssue 6, .record 1 .issueCreated 5, .record 1 .issueCreated 6,
    .monitorChanges 9 [(.monitorFiring, "a"), (.monitorResolved, "a")] [1], .startTick 1] ++
    List.replicate 14 (Action.perform 0 .delivered) ++ [Action.kill 0, .pass 60, .startTick 1] ++
    List.replicate 12 (Action.perform 0 (.error "timeout")) ++ [Action.endTick 0]

/-- The run that is killed between messages is one. -/
private theorem killedBetween_runs :
    (Transition.run step killsIdle init killedBetween).isSome = true := by
  decide

/-- Every row of that run has an outcome. -/
theorem notifications_haveOutcome_killedBetween : ∃ s : System,
    Transition.run step killsIdle init killedBetween = some s ∧
      s.rows.map Notification.status = [.sent, .sent, .sent, .failed] ∧
      ∀ row ∈ s.rows, HasOutcome s.now row := by
  have hrun := (Option.some_get killedBetween_runs).symm
  exact ⟨_, hrun, by decide,
    notifications_haveOutcome (Transition.reaches_of_run hrun) (by decide)⟩

/-- A tick is killed while the provider is called with a new Issue. -/
def killedDelivering : List Action :=
  [Action.addIntegration 1, .addIssue 5, .record 1 .issueCreated 5, .startTick 1] ++
    List.replicate 6 (Action.perform 0 .delivered) ++ [Action.kill 0]

/-- The run that is killed while it delivers is one. -/
private theorem killedDelivering_runs :
    (Transition.run step (fun _ _ => True) init killedDelivering).isSome = true := by
  decide

/-- The row of that run stays in processing, with no tick running. -/
theorem not_forall_haveOutcome : ¬ ∀ s : System, Transition.Reaches step (fun _ _ => True) init s →
    s.ticks = [] → ∀ row ∈ s.rows, HasOutcome s.now row := by
  intro hall
  have hrun := (Option.some_get killedDelivering_runs).symm
  have hrow := hall _ (Transition.reaches_of_run hrun) (by decide)
    ⟨1, 1, .issue 5, .issueCreated, .processing, 1, 0, 0, none, some 0, none⟩ (by decide)
  exact hrow

end System

end SolidTrace.Notifications
