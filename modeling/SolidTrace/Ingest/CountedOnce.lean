import Mathlib.Algebra.BigOperators.Group.List.Basic
import Mathlib.Data.List.Pairwise
import Mathlib.Tactic.Abel
import SolidTrace.Ingest.IngestCounts

/-!
# Ingest counts are stored exactly once

In every run, whatever was counted for a Project's second is in its stored rows, in the rows taken
that are not stored yet, and in its row still among the seconds, once. A write sent again is the
same block under the same token, and no row is sent under two tokens.
-/

namespace SolidTrace.Ingest

/-- What some rows hold for a Project's second. -/
def sumAt (key : ProjectSecond) (rows : List IngestCount) : Counts :=
  ((rows.filter fun row => row.key = key).map IngestCount.counts).sum

section Sums

variable {key : ProjectSecond}

/-- No rows count nothing. -/
@[simp]
theorem sumAt_nil : sumAt key [] = 0 := rfl

/-- Two lists of rows count what each of them does. -/
@[simp]
theorem sumAt_append (xs ys : List IngestCount) :
    sumAt key (xs ++ ys) = sumAt key xs + sumAt key ys := by
  simp [sumAt]

/-- The order of rows does not matter to what they count. -/
theorem sumAt_perm {xs ys : List IngestCount} (h : xs.Perm ys) : sumAt key xs = sumAt key ys :=
  ((h.filter _).map _).sum_eq

/-- A row counts at its own key only. -/
theorem sumAt_singleton (row : IngestCount) :
    sumAt key [row] = if row.key = key then row.counts else 0 := by
  by_cases h : row.key = key <;> simp [sumAt, h]

/-- A row more adds to its own key only. -/
theorem sumAt_cons (row : IngestCount) (rows : List IngestCount) :
    sumAt key (row :: rows) = (if row.key = key then row.counts else 0) + sumAt key rows := by
  rw [← sumAt_singleton, ← sumAt_append, List.singleton_append]

/-- Rows of other keys are not added to. -/
theorem map_addTo_eq_self {counted : Counts} {rows : List IngestCount}
    (h : key ∉ rows.map IngestCount.key) : rows.map (Seconds.addTo key counted) = rows := by
  refine (List.map_congr_left fun row hrow => ?_).trans (List.map_id rows)
  have hne : row.key ≠ key := fun heq => h (heq ▸ List.mem_map_of_mem hrow)
  simp [Seconds.addTo, hne]

/-- Counts added to the one row of a key are added to what the rows hold for it. -/
theorem sumAt_map_addTo {at' : ProjectSecond} {counted : Counts} {rows : List IngestCount}
    (hnodup : (rows.map IngestCount.key).Nodup) (hmem : at' ∈ rows.map IngestCount.key) :
    sumAt key (rows.map (Seconds.addTo at' counted)) =
      sumAt key rows + if at' = key then counted else 0 := by
  induction rows with
  | nil => simp at hmem
  | cons row rows ih =>
    rw [List.map_cons, List.nodup_cons] at hnodup
    rw [List.map_cons, sumAt_cons, sumAt_cons, Seconds.addTo_key]
    by_cases hrow : row.key = at'
    · subst hrow
      rw [map_addTo_eq_self hnodup.1]
      have hcounts : (Seconds.addTo row.key counted row).counts = row.counts + counted := by
        simp [Seconds.addTo]
      rw [hcounts]
      split
      · abel
      · simp
    · have hmem' : at' ∈ rows.map IngestCount.key := by
        simpa [Ne.symm hrow] using hmem
      have hself : Seconds.addTo at' counted row = row := by
        simp [Seconds.addTo, hrow]
      rw [ih hnodup.2 hmem', hself, add_assoc]

/-- A count more is added at its own second. -/
theorem sumAt_count (s : Seconds) (at' : ProjectSecond) (counted : Counts) (serial : ℕ) :
    sumAt key (s.count at' counted serial).rows =
      sumAt key s.rows + if at' = key then counted else 0 := by
  unfold Seconds.count
  split
  · exact sumAt_map_addTo s.nodup ‹_›
  · rw [sumAt_append, sumAt_singleton]

end Sums

namespace System

variable {s t : System}

/-- What was counted for a Project's second. -/
def countedAt (s : System) (key : ProjectSecond) : Counts :=
  ((s.counted.filter fun c => c.1 = key).map Prod.snd).sum

/-- The rows of a flush that have no token yet. -/
def tookRows (s : System) : List IngestCount :=
  match s.flush with
  | .took rows => rows
  | _ => []

/-- The rows of the pending write, and those about to be, that are not stored. -/
def unstored (s : System) : List IngestCount :=
  s.tookRows ++ if s.token ∈ s.taken then [] else s.pending.getD []

/-- The serials of every row there is: those given a token, and those not. -/
def serials (s : System) : List ℕ :=
  (s.drawn.flatMap Send.rows ++ (s.tookRows ++ s.seconds.rows)).map IngestCount.serial

/-- While a flush writes, it has a block to write; before it takes the seconds, none is left. -/
def FlushKept (s : System) : Prop :=
  match s.flush with
  | .idle => True
  | .sending _ => s.pending.isSome
  | .answering _ => s.pending.isSome
  | .taking _ => s.pending = none
  | .took _ => s.pending = none

structure Inv (s : System) : Prop where
  conserved : ∀ key, sumAt key s.stored + sumAt key s.unstored + sumAt key s.seconds.rows =
    s.countedAt key
  flushKept : s.FlushKept
  pending_drawn : ∀ rows ∈ s.pending, ⟨s.token, rows⟩ ∈ s.drawn
  taken_drawn : ∀ token ∈ s.taken, token ∈ s.drawn.map Send.token
  drawn_nodup : (s.drawn.map Send.token).Nodup
  sent_drawn : ∀ send ∈ s.sent, send ∈ s.drawn
  serials_nodup : s.serials.Nodup
  serials_lt : ∀ n ∈ s.serials, n < s.nextSerial

/-- The invariant holds before anything is counted. -/
theorem Inv.init : Inv System.init where
  conserved _ := rfl
  flushKept := trivial
  pending_drawn := by simp [System.init]
  taken_drawn := by simp [System.init]
  drawn_nodup := by simp [System.init]
  sent_drawn := by simp [System.init]
  serials_nodup := by simp [serials, tookRows, System.init, Seconds.empty]
  serials_lt := by simp [serials, tookRows, System.init, Seconds.empty]

/-- Counting keeps each row's serial and may add one row with the next. -/
theorem map_serial_count (s : Seconds) (key : ProjectSecond) (counted : Counts) (serial : ℕ) :
    (s.count key counted serial).rows.map IngestCount.serial = s.rows.map IngestCount.serial ∨
      (s.count key counted serial).rows.map IngestCount.serial =
        s.rows.map IngestCount.serial ++ [serial] := by
  unfold Seconds.count
  split
  · left
    simp [Function.comp_def]
  · right
    simp

/-- What the counts of one more request add. -/
theorem sum_counted_append (counted : List (ProjectSecond × Counts)) (at' key : ProjectSecond)
    (c : Counts) :
    (((counted ++ [(at', c)]).filter fun c => c.1 = key).map Prod.snd).sum =
      ((counted.filter fun c => c.1 = key).map Prod.snd).sum + if at' = key then c else 0 := by
  by_cases h : at' = key <;> simp [h]

/-- Serials below the next one stay distinct when it is added among them. -/
theorem serials_append {before after : List ℕ} {next : ℕ} (hnodup : (before ++ after).Nodup)
    (hlt : ∀ n ∈ before ++ after, n < next) :
    (before ++ (after ++ [next])).Nodup ∧ ∀ n ∈ before ++ (after ++ [next]), n < next + 1 := by
  rw [← List.append_assoc]
  constructor
  · refine hnodup.append (List.nodup_singleton _) ?_
    intro n hn hnext
    rw [List.mem_singleton.mp hnext] at hn
    exact lt_irrefl _ (hlt _ hn)
  · intro n hn
    obtain hn | hn := List.mem_append.mp hn
    · exact Nat.lt_succ_of_lt (hlt n hn)
    · rw [List.mem_singleton.mp hn]
      exact Nat.lt_succ_self _

/-- Counting keeps the invariant. -/
theorem Inv.count (hinv : Inv s) {project : Storage.ProjectID} {time : ℤ} {counted : Counts}
    (hstep : s.step (.count project time counted) = some t) : Inv t := by
  obtain rfl := Option.some.inj hstep
  have hserials : s.serials =
      (s.drawn.flatMap Send.rows ++ s.tookRows).map IngestCount.serial ++
        s.seconds.rows.map IngestCount.serial := by
    simp [serials]
  have hnodup := hinv.serials_nodup
  have hlt := hinv.serials_lt
  rw [hserials] at hnodup hlt
  have hboth : ∀ rows : List ℕ, (rows = s.seconds.rows.map IngestCount.serial ∨
      rows = s.seconds.rows.map IngestCount.serial ++ [s.nextSerial]) →
      ((s.drawn.flatMap Send.rows ++ s.tookRows).map IngestCount.serial ++ rows).Nodup ∧
        ∀ n ∈ (s.drawn.flatMap Send.rows ++ s.tookRows).map IngestCount.serial ++ rows,
          n < s.nextSerial + 1 := by
    rintro rows (rfl | rfl)
    · exact ⟨hnodup, fun n hn => Nat.lt_succ_of_lt (hlt n hn)⟩
    · exact serials_append hnodup hlt
  have hafter := hboth _ (map_serial_count s.seconds ⟨project, unix time⟩ counted s.nextSerial)
  rw [← List.map_append, List.append_assoc] at hafter
  refine { hinv with conserved := ?_, serials_nodup := hafter.1, serials_lt := hafter.2 }
  intro key
  have hsum := sum_counted_append s.counted ⟨project, unix time⟩ key counted
  calc sumAt key s.stored + sumAt key s.unstored +
        sumAt key (s.seconds.count ⟨project, unix time⟩ counted s.nextSerial).rows
      = s.countedAt key + if (⟨project, unix time⟩ : ProjectSecond) = key then counted else 0 := by
        rw [sumAt_count, ← add_assoc, hinv.conserved]
    _ = _ := hsum.symm

/-- A flush that goes on with the rows it has out of the seconds changes nothing else. -/
theorem Inv.setFlush (hinv : Inv s) {f : Flush}
    (htook : ({ s with flush := f } : System).tookRows = s.tookRows)
    (hkept : ({ s with flush := f } : System).FlushKept) : Inv { s with flush := f } := by
  have hunstored : ({ s with flush := f } : System).unstored = s.unstored := by
    rw [unstored, htook, unstored]
  have hserials : ({ s with flush := f } : System).serials = s.serials := by
    rw [serials, htook, serials]
  refine { hinv with conserved := ?_, flushKept := hkept, serials_nodup := ?_, serials_lt := ?_ }
  · intro key
    rw [hunstored]
    exact hinv.conserved key
  · rw [hserials]
    exact hinv.serials_nodup
  · rw [hserials]
    exact hinv.serials_lt

/-- Starting a flush keeps the invariant. -/
theorem Inv.flush (hinv : Inv s) {before : ℤ} (hstep : s.step (.flush before) = some t) :
    Inv t := by
  simp only [step] at hstep
  split at hstep
  · rename_i hidle
    have htook : s.tookRows = [] := by simp [tookRows, hidle]
    split at hstep
    · rename_i rows hpending
      obtain rfl := Option.some.inj hstep
      exact hinv.setFlush htook.symm (by simp [FlushKept, hpending])
    · rename_i hpending
      obtain rfl := Option.some.inj hstep
      exact hinv.setFlush htook.symm hpending
  · cases hstep

/-- What the writer takes of the pending block moves from the rows not stored to those stored. -/
theorem Inv.store (hinv : Inv s) {rows : List IngestCount} (hpending : s.pending = some rows) :
    Inv (s.store s.token rows) := by
  unfold System.store
  split
  · exact hinv
  · rename_i hnew
    refine { hinv with conserved := ?_, taken_drawn := ?_ }
    · intro key
      have hkey := hinv.conserved key
      simp only [unstored, tookRows, hpending, hnew, if_false, Option.getD_some, sumAt_append,
        List.mem_append, List.mem_singleton, or_true, if_true, sumAt_nil, add_zero] at hkey ⊢
      refine Eq.trans ?_ hkey
      abel
    · intro token htoken
      obtain htoken | htoken := List.mem_append.mp htoken
      · exact hinv.taken_drawn token htoken
      · rw [List.mem_singleton.mp htoken]
        exact List.mem_map_of_mem (hinv.pending_drawn rows hpending)

/-- Writing the rows keeps the invariant, whether or not they arrive. -/
theorem Inv.write (hinv : Inv s) {arrives : Bool} (hstep : s.step (.write arrives) = some t) :
    Inv t := by
  simp only [step] at hstep
  split at hstep
  · rename_i retry rows hsending hpending
    have hanswering : Inv { s with flush := .answering retry } :=
      hinv.setFlush (by simp [tookRows, hsending]) (by simp [FlushKept, hpending])
    have hsent : Inv { s with flush := .answering retry, sent := s.sent ++ [⟨s.token, rows⟩] } := by
      refine { hanswering with sent_drawn := ?_ }
      intro send hsend
      obtain hsend | hsend := List.mem_append.mp hsend
      · exact hinv.sent_drawn send hsend
      · rw [List.mem_singleton.mp hsend]
        exact hinv.pending_drawn rows hpending
    obtain rfl := Option.some.inj hstep
    split
    · exact hsent.store hpending
    · exact hsent
  · cases hstep

/-- An answer keeps the invariant, a failure included. -/
theorem Inv.answer (hinv : Inv s) {failed : Bool} (hstep : s.step (.answer failed) = some t) :
    Inv t := by
  simp only [step] at hstep
  split at hstep
  · rename_i retry hanswering
    have htook : s.tookRows = [] := by simp [tookRows, hanswering]
    split at hstep
    · obtain rfl := Option.some.inj hstep
      exact hinv.setFlush htook.symm trivial
    · split at hstep
      · rename_i htaken
        obtain rfl := Option.some.inj hstep
        -- The block is stored, so forgetting it loses nothing.
        have hforgot : Inv { s with pending := none, flush := .idle } := by
          have hidle : Inv { s with flush := .idle } := hinv.setFlush htook.symm trivial
          refine { hidle with conserved := ?_, pending_drawn := by simp }
          intro key
          have hkey := hidle.conserved key
          simp only [unstored, tookRows, htaken, if_true] at hkey ⊢
          exact hkey
        cases retry with
        | none => exact hforgot
        | some before => exact hforgot.setFlush rfl rfl
      · cases hstep
  · cases hstep

/-- The rows a flush takes, sorted, and those it leaves are the rows there were. -/
theorem taken_perm (rows : List IngestCount) (p : IngestCount → Bool) :
    ((rows.filter p).insertionSort (fun a b => a.le b) ++ rows.filter fun row => !p row).Perm
      rows :=
  ((List.perm_insertionSort _ _).append_right _).trans (List.filter_append_perm p rows)

/-- Taking the rows of a flush keeps the invariant. -/
theorem Inv.take (hinv : Inv s) (hstep : s.step .take = some t) : Inv t := by
  simp only [step] at hstep
  split at hstep
  · rename_i before htaking
    obtain rfl := Option.some.inj hstep
    have hnone : s.pending = none := by
      simpa [FlushKept, htaking] using hinv.flushKept
    have hbefore : s.tookRows = [] := by simp [tookRows, htaking]
    have hperm := taken_perm s.seconds.rows fun row => row.key.second < before
    set taken := s.seconds.rows.filter fun row => row.key.second < before with htaken
    set s' : System := { s with
      seconds := s.seconds.keep fun row => !(row.key.second < before)
      flush := if taken.isEmpty then .idle else .took (taken.insertionSort fun a b => a.le b) }
      with hs'
    have hafter : s'.tookRows = taken.insertionSort fun a b => a.le b := by
      by_cases hempty : taken = [] <;> simp [tookRows, hs', hempty]
    have hserials : s'.serials.Perm s.serials := by
      rw [serials, serials, hafter, hbefore]
      exact (hperm.append_left _).map _
    refine { hinv with conserved := ?_, flushKept := ?_, serials_nodup := ?_, serials_lt := ?_ }
    · intro key
      have hkey := hinv.conserved key
      rw [unstored, hbefore, hnone, ← sumAt_perm hperm, sumAt_append] at hkey
      simp only [Option.getD_none, ite_self, sumAt_nil, add_zero] at hkey
      rw [unstored, hafter]
      refine Eq.trans ?_ hkey
      simp only [hs', hnone, Option.getD_none, ite_self, List.append_nil, Seconds.keep, add_assoc,
        sumAt_append]
    · by_cases hempty : taken = [] <;> simp [FlushKept, hs', hempty, hnone]
    · exact hserials.nodup_iff.mpr hinv.serials_nodup
    · intro n hn
      exact hinv.serials_lt n (hserials.mem_iff.mp hn)
  · cases hstep

/-- Drawing a new token keeps the invariant. -/
theorem Inv.draw (hinv : Inv s) {uuid : String} (hnew : s.newToken (.draw uuid))
    (hstep : s.step (.draw uuid) = some t) : Inv t := by
  simp only [step] at hstep
  split at hstep
  · rename_i rows htook
    obtain rfl := Option.some.inj hstep
    have hnone : s.pending = none := by
      simpa [FlushKept, htook] using hinv.flushKept
    have hfresh : "ingest-counts-" ++ uuid ∉ s.taken := fun h => hnew (hinv.taken_drawn _ h)
    set s' : System := { s with
      pending := some rows
      token := "ingest-counts-" ++ uuid
      flush := .sending none
      drawn := s.drawn ++ [⟨"ingest-counts-" ++ uuid, rows⟩] } with hs'
    have hserials : s'.serials = s.serials := by
      simp [serials, tookRows, htook, hs']
    refine { hinv with
      conserved := ?_, flushKept := rfl, pending_drawn := ?_, taken_drawn := ?_, drawn_nodup := ?_
      sent_drawn := ?_, serials_nodup := ?_, serials_lt := ?_ }
    · intro key
      have hkey := hinv.conserved key
      simp only [unstored, tookRows, htook, hnone, Option.getD_none, ite_self, List.append_nil] at hkey
      refine Eq.trans ?_ hkey
      simp [unstored, tookRows, hfresh, hs']
    · intro rows' hrows'
      obtain rfl := Option.some.inj hrows'
      exact List.mem_append_right _ (List.mem_singleton_self _)
    · intro token htoken
      rw [List.map_append]
      exact List.mem_append_left _ (hinv.taken_drawn token htoken)
    · rw [List.map_append]
      exact hinv.drawn_nodup.append (List.nodup_singleton _) (List.disjoint_singleton.mpr hnew)
    · exact fun send hsend => List.mem_append_left _ (hinv.sent_drawn send hsend)
    · rw [hserials]
      exact hinv.serials_nodup
    · rw [hserials]
      exact hinv.serials_lt
  · cases hstep

/-- Every step keeps the invariant. -/
theorem Inv.step (hinv : Inv s) {a : Action} (hnew : s.newToken a) (hstep : s.step a = some t) :
    Inv t := by
  cases a with
  | count project time counted => exact hinv.count hstep
  | flush before => exact hinv.flush hstep
  | write arrives => exact hinv.write hstep
  | answer failed => exact hinv.answer hstep
  | take => exact hinv.take hstep
  | draw uuid => exact hinv.draw hnew hstep

/-- What holds of the counts and of the writes sent so far. -/
structure CountedOnce (s : System) : Prop where
  /-- What was counted for a Project's second is stored, waiting to be, or in its row, once. -/
  conserved : ∀ key, sumAt key s.stored + sumAt key s.unstored + sumAt key s.seconds.rows =
    s.countedAt key
  /-- A write sent again under a token is the same block. -/
  sameBlock : ∀ a ∈ s.sent, ∀ b ∈ s.sent, a.token = b.token → a.rows = b.rows
  /-- No row is sent under two tokens. -/
  oneToken : ∀ a ∈ s.sent, ∀ b ∈ s.sent, ∀ row ∈ a.rows, ∀ row' ∈ b.rows,
    row.serial = row'.serial → a.token = b.token

/-- Blocks whose rows are all distinct share a row only if they are the same. -/
theorem eq_of_serial_eq {sends : List Send}
    (hnodup : ((sends.flatMap Send.rows).map IngestCount.serial).Nodup) {a b : Send}
    (ha : a ∈ sends) (hb : b ∈ sends) {row row' : IngestCount} (hrow : row ∈ a.rows)
    (hrow' : row' ∈ b.rows) (hserial : row.serial = row'.serial) : a = b := by
  by_contra hne
  rw [List.map_flatMap, List.nodup_flatMap] at hnodup
  have hsymm : Std.Symm (Function.onFun List.Disjoint fun send : Send =>
      send.rows.map IngestCount.serial) := ⟨fun _ _ h => h.symm⟩
  have hdisjoint := hnodup.2.forall ha hb hne
  exact hdisjoint (List.mem_map_of_mem hrow) (hserial ▸ List.mem_map_of_mem hrow')

/-- What was counted is counted once, by the invariant. -/
theorem Inv.countedOnce (hinv : Inv s) : CountedOnce s where
  conserved := hinv.conserved
  sameBlock a ha b hb htoken := by
    have hab := List.inj_on_of_nodup_map hinv.drawn_nodup (hinv.sent_drawn a ha)
      (hinv.sent_drawn b hb) htoken
    rw [hab]
  oneToken a ha b hb row hrow row' hrow' hserial := by
    have hnodup : ((s.drawn.flatMap Send.rows).map IngestCount.serial).Nodup := by
      have := hinv.serials_nodup
      rw [serials, List.map_append] at this
      exact this.of_append_left
    rw [eq_of_serial_eq hnodup (hinv.sent_drawn a ha) (hinv.sent_drawn b hb) hrow hrow' hserial]

/-- In every state of every run, Ingest counts are stored exactly once. -/
theorem counts_storedOnce (hrun : Transition.Reaches step newToken init s) : CountedOnce s :=
  (hrun.invariant Inv.init fun _ _ _ hinv hnew hstep => hinv.step hnew hstep).countedOnce

/-- A second is flushed by a write that stores its rows and fails. A late request counts in it
again before the write is sent again, and its row goes out under a token of its own. -/
def lateCount : List Action :=
  let one : Counts := ⟨1, 0, 10, 5, 1, 0, 0, 0⟩
  [.count 7 1500000000 one, .count 7 1700000000 one, .count 8 2100000000 one, .flush 2, .take,
    .draw "a", .write true, .answer true, .count 7 1900000000 one, .flush 2, .write true,
    .answer false, .take, .draw "b", .write false, .answer true, .count 7 1950000000 one]

/-- The run with a late count is one. -/
private theorem lateCount_runs : (Transition.run step newToken init lateCount).isSome = true := by
  decide +kernel

/-- Of the second's four Logs, two are stored, one waits to be sent again and one is in a new
row. -/
theorem counts_storedOnce_lateCount : ∃ s : System,
    Transition.run step newToken init lateCount = some s ∧
      (sumAt ⟨7, 1⟩ s.stored).logsReceived = 2 ∧ (sumAt ⟨7, 1⟩ s.unstored).logsReceived = 1 ∧
      (s.countedAt ⟨7, 1⟩).logsReceived = 4 ∧ s.sent.length = 3 ∧ CountedOnce s := by
  have hrun := (Option.some_get lateCount_runs).symm
  exact ⟨_, hrun, by decide +kernel, by decide +kernel, by decide +kernel, by decide +kernel,
    counts_storedOnce (Transition.reaches_of_run hrun)⟩

end System

end SolidTrace.Ingest
