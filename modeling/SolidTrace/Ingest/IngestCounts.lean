import Mathlib.Data.BitVec
import Mathlib.Data.List.Sort
import Mathlib.Data.Prod.Lex
import SolidTrace.Lib.Transition
import SolidTrace.Storage.PebbleWriter

/-!
# Ingest counts and their flusher

Requests add what they held to their Project's second of arrival. The flusher takes the seconds
that have ended and writes them as one block under a new token; a write that fails is sent again
under the same token before any second is taken. Requests count at any moment between the
flusher's steps. Counts are 64-bit words, and times are in nanoseconds since 1970.
-/

namespace SolidTrace.Ingest

open Storage (ProjectID)

/-- What requests held. -/
@[ext]
structure Counts where
  logsReceived : BitVec 64
  logsUnreadable : BitVec 64
  bytesReceived : BitVec 64
  bytesOnWire : BitVec 64
  requests : BitVec 64
  requestsOverloaded : BitVec 64
  spansReceived : BitVec 64
  spanBytesReceived : BitVec 64
deriving DecidableEq

namespace Counts

def zero : Counts := ⟨0, 0, 0, 0, 0, 0, 0, 0⟩

/-- Add the counts of another. -/
def add (c o : Counts) : Counts where
  logsReceived := c.logsReceived + o.logsReceived
  logsUnreadable := c.logsUnreadable + o.logsUnreadable
  bytesReceived := c.bytesReceived + o.bytesReceived
  bytesOnWire := c.bytesOnWire + o.bytesOnWire
  requests := c.requests + o.requests
  requestsOverloaded := c.requestsOverloaded + o.requestsOverloaded
  spansReceived := c.spansReceived + o.spansReceived
  spanBytesReceived := c.spanBytesReceived + o.spanBytesReceived

instance : Zero Counts := ⟨zero⟩
instance : Add Counts := ⟨add⟩

instance : AddCommMonoid Counts where
  add_assoc a b c := by ext1 <;> exact add_assoc _ _ _
  zero_add a := by ext1 <;> exact zero_add _
  add_zero a := by ext1 <;> exact add_zero _
  add_comm a b := by ext1 <;> exact add_comm _ _
  nsmul := nsmulRec

end Counts

/-- A Project's second of arrival. -/
structure ProjectSecond where
  project : ProjectID
  second : ℤ
deriving DecidableEq

/-- The Ingest counts of one Project's second of arrival. `serial` tells the rows apart that were
made for the same second one after another. -/
structure IngestCount where
  key : ProjectSecond
  counts : Counts
  serial : ℕ
deriving DecidableEq

/-- The whole seconds of a time. -/
def unix (time : ℤ) : ℤ := time / 1000000000

/-- The rows of the seconds not yet written, one for each Project and second. -/
structure Seconds where
  rows : List IngestCount
  nodup : (rows.map IngestCount.key).Nodup

namespace Seconds

def empty : Seconds := ⟨[], List.nodup_nil⟩

/-- The row with some counts added, if it is of a key. -/
def addTo (key : ProjectSecond) (counted : Counts) (row : IngestCount) : IngestCount :=
  if row.key = key then { row with counts := row.counts + counted } else row

/-- Adding to a second's row leaves its key. -/
@[simp]
theorem addTo_key (key : ProjectSecond) (counted : Counts) (row : IngestCount) :
    (addTo key counted row).key = row.key := by
  unfold addTo
  split <;> rfl

/-- Adding to a second's row leaves its serial. -/
@[simp]
theorem addTo_serial (key : ProjectSecond) (counted : Counts) (row : IngestCount) :
    (addTo key counted row).serial = row.serial := by
  unfold addTo
  split <;> rfl

/-- Add counts to the row of a key, which is made if there is none. -/
def count (s : Seconds) (key : ProjectSecond) (counted : Counts) (serial : ℕ) : Seconds :=
  if h : key ∈ s.rows.map IngestCount.key then
    { rows := s.rows.map (addTo key counted)
      nodup := by
        have hkeys : (s.rows.map (addTo key counted)).map IngestCount.key =
            s.rows.map IngestCount.key := by
          simp [Function.comp_def]
        rw [hkeys]
        exact s.nodup }
  else
    { rows := s.rows ++ [⟨key, counted, serial⟩]
      nodup := by
        rw [List.map_append, List.map_singleton]
        exact s.nodup.append (List.nodup_singleton key) (by simpa using h) }

/-- The rows of the seconds that pass a test. -/
def keep (s : Seconds) (p : IngestCount → Bool) : Seconds :=
  ⟨s.rows.filter p, s.nodup.sublist (List.filter_sublist.map _)⟩

end Seconds

/-- The order of the rows of a block. -/
def IngestCount.le (a b : IngestCount) : Bool :=
  toLex (a.key.project, a.key.second) ≤ toLex (b.key.project, b.key.second)

abbrev Token := String

/-- One write of a block, as the writer was sent it. -/
structure Send where
  token : Token
  rows : List IngestCount
deriving DecidableEq

/-- Where a flush is. `retry` holds the seconds to flush after a failed write was sent again. -/
inductive Flush where
  | idle
  | sending (retry : Option ℤ)
  | answering (retry : Option ℤ)
  | taking (before : ℤ)
  /-- The rows are out of the seconds, sorted, with no token yet. -/
  | took (rows : List IngestCount)

/-- The Ingest counts of a process, what the writer has stored, and what happened so far. -/
structure System where
  seconds : Seconds
  pending : Option (List IngestCount)
  token : Token
  flush : Flush
  /-- The writer's rows, and the tokens it took them under. -/
  stored : List IngestCount
  taken : List Token
  nextSerial : ℕ
  /-- Everything counted, each token drawn with its block, and every write sent. -/
  counted : List (ProjectSecond × Counts)
  drawn : List Send
  sent : List Send

namespace System

def init : System :=
  ⟨.empty, none, "", .idle, [], [], 0, [], [], []⟩

inductive Action where
  /-- A request's counts. -/
  | count (project : ProjectID) (time : ℤ) (counted : Counts)
  /-- A flush of the seconds before one begins. -/
  | flush (before : ℤ)
  /-- The block reaches the writer, or is lost on the way. -/
  | write (arrives : Bool)
  /-- The write returns, with an error or none. -/
  | answer (failed : Bool)
  | take
  /-- A new token is drawn for the rows taken. -/
  | draw (uuid : String)

/-- The writer stores a block once for each token. -/
def store (s : System) (token : Token) (rows : List IngestCount) : System :=
  if token ∈ s.taken then s
  else { s with stored := s.stored ++ rows, taken := s.taken ++ [token] }

/-- What one action makes of the process and the writer, if it can happen. -/
def step (s : System) : Action → Option System
  | .count project time counted =>
    let key := ⟨project, unix time⟩
    some { s with
      seconds := s.seconds.count key counted s.nextSerial
      nextSerial := s.nextSerial + 1
      counted := s.counted ++ [(key, counted)] }
  | .flush before =>
    match s.flush with
    | .idle =>
      match s.pending with
      | some _ => some { s with flush := .sending (some before) }
      | none => some { s with flush := .taking before }
    | _ => none
  | .write arrives =>
    match s.flush, s.pending with
    | .sending retry, some rows =>
      let s := { s with flush := .answering retry, sent := s.sent ++ [⟨s.token, rows⟩] }
      some (if arrives then s.store s.token rows else s)
    | _, _ => none
  | .answer failed =>
    match s.flush with
    | .answering retry =>
      if failed then some { s with flush := .idle }
      else if s.token ∈ s.taken then
        some { s with
          pending := none
          flush := match retry with
            | some before => .taking before
            | none => .idle }
      else none
    | _ => none
  | .take =>
    match s.flush with
    | .taking before =>
      let taken := s.seconds.rows.filter fun row => row.key.second < before
      some { s with
        seconds := s.seconds.keep fun row => !(row.key.second < before)
        flush := if taken.isEmpty then .idle else .took (taken.insertionSort fun a b => a.le b) }
    | _ => none
  | .draw uuid =>
    match s.flush with
    | .took rows =>
      let token := "ingest-counts-" ++ uuid
      some { s with
        pending := some rows
        token
        flush := .sending none
        drawn := s.drawn ++ [⟨token, rows⟩] }
    | _ => none

/-- A token drawn is a new one. -/
def newToken (s : System) : Action → Prop
  | .draw uuid => "ingest-counts-" ++ uuid ∉ s.drawn.map Send.token
  | _ => True

instance (s : System) : (a : Action) → Decidable (s.newToken a)
  | .draw uuid => inferInstanceAs (Decidable ("ingest-counts-" ++ uuid ∉ s.drawn.map Send.token))
  | .count _ _ _ => isTrue trivial
  | .flush _ => isTrue trivial
  | .write _ => isTrue trivial
  | .answer _ => isTrue trivial
  | .take => isTrue trivial

end System

end SolidTrace.Ingest
