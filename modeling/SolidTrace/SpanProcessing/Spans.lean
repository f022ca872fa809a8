import Mathlib.Algebra.Group.Int.Defs
import Mathlib.Algebra.Group.Nat.Defs
import Mathlib.Data.Int.Order.Basic
import Mathlib.Data.Rat.Defs
import Mathlib.Data.List.Sort

/-!
# The Spans of a Transaction

`spansOf` reads a Transaction's payload into rows: its segment, then each of its Spans, with each
one's self time, group and repeats worked out over the Transaction. A payload that cannot be read,
or whose times cannot be stored, gives no rows at all. Times are in microseconds and durations in
nanoseconds. What Go's standard library decides is a parameter.
-/

namespace SolidTrace.SpanProcessing

/-- A JSON value as it was sent. -/
abbrev RawMessage := List UInt8

/-- A sampled Transaction as ingest stored it. -/
structure Transaction where
  sampleRate : ℚ
  payload : List UInt8
deriving DecidableEq

/-- A Span as SDKs send it, and the trace context. -/
structure SpanPayload where
  traceID : String
  spanID : String
  parentSpanID : String
  op : String
  description : String
  status : String
  startTimestamp : RawMessage
  timestamp : RawMessage
  tags : RawMessage
  data : List (String × RawMessage)
deriving DecidableEq

/-- The part of a transaction payload that Span processing reads. -/
structure TransactionPayload where
  transaction : String
  source : String
  startTimestamp : RawMessage
  timestamp : RawMessage
  environment : String
  release : String
  serverName : String
  tags : RawMessage
  trace : SpanPayload
  spans : List SpanPayload
deriving DecidableEq

/-- A Span as stored. -/
structure Span where
  traceID : String
  spanID : String
  parentSpanID : String
  segmentID : String
  isSegment : Bool
  transaction : String
  op : String
  description : String
  group : String
  repeats : ℕ
  status : String
  start : ℤ
  duration : ℤ
  selfTime : ℤ
  sampleRate : ℚ
  environment : String
  release : String
  serverName : String
  attributes : List (String × String)
deriving DecidableEq

/-- What Go's standard library decides: how JSON, times and numbers are read and written, and what
a regular expression replaces. -/
structure Library where
  unmarshalTransaction : List UInt8 → Except String TransactionPayload
  unmarshalString : RawMessage → Except String String
  unmarshalMap : RawMessage → Except String (List (String × RawMessage))
  /-- A time in RFC 3339, in nanoseconds. -/
  parseRFC3339Nano : String → Except String ℤ
  /-- A number of seconds as a float, in microseconds, rounded. -/
  parseSeconds : RawMessage → Except String ℤ
  formatTime : ℤ → String
  toLower : String → String
  trimSpace : RawMessage → String
  /-- A description with its literals replaced. -/
  normalised : String → String

/-- The name of every Transaction named by its raw URL, or by nothing. -/
def unparameterisedTransaction : String := "<unparameterised>"

/-- Holds the name an Unparameterised Transaction was sent with. -/
def rawTransactionAttribute : String := "transaction.raw"

/-- An error that marks a Transaction that can't be stored for what it holds. -/
def unreadable (text : String) : String := "transaction can't be read: " ++ text

/-- The first storable time, the Unix epoch. -/
def firstStorableTime : ℤ := 0

/-- The end of storable time, the start of June 2149. -/
def endOfStorableTime : ℤ := 5661792000 * 1000000

/-- The longest `time.Duration`. -/
def maxDuration : ℤ := 2 ^ 63 - 1

/-- Read a time as SDKs send it: a number of Unix seconds, or an RFC 3339 string. -/
def timestamp (lib : Library) (raw : RawMessage) : Except String ℤ :=
  if raw.head? = some 34 then do
    let s ← lib.unmarshalString raw
    let at' ← lib.parseRFC3339Nano s
    return at' / 1000
  else lib.parseSeconds raw

/-- A tag's or data's value as an Attribute: a string as it is, anything else as its JSON. -/
def attributeValue (lib : Library) (raw : RawMessage) : String :=
  match lib.unmarshalString raw with
  | .ok s => s
  | .error _ => lib.trimSpace raw

/-- Set an Attribute. -/
def setAttribute (attributes : List (String × String)) (key value : String) :
    List (String × String) :=
  attributes.filter (fun a => a.1 ≠ key) ++ [(key, value)]

/-- Set every Attribute that data or tags name. -/
def setAttributes (lib : Library) (attributes : List (String × String))
    (values : List (String × RawMessage)) : List (String × String) :=
  values.foldl (fun attributes v => setAttribute attributes v.1 (attributeValue lib v.2)) attributes

/-- A Span's Attributes: its data, and its tags where they can be read. -/
def attributesOf (lib : Library) (s : SpanPayload) : List (String × String) :=
  let attributes := setAttributes lib [] s.data
  match lib.unmarshalMap s.tags with
  | .ok tags => setAttributes lib attributes tags
  | .error _ => attributes

/-- A Span's row before what its Transaction gives it. -/
def spanRow (lib : Library) (s : SpanPayload) : Except String Span := do
  let start ← (timestamp lib s.startTimestamp).mapError fun err =>
    unreadable ("span " ++ s.spanID ++ "'s start: " ++ err)
  let finish ← (timestamp lib s.timestamp).mapError fun err =>
    unreadable ("span " ++ s.spanID ++ "'s end: " ++ err)
  if start < firstStorableTime ∨ endOfStorableTime ≤ start then
    throw (unreadable ("span " ++ s.spanID ++ " starts at " ++ lib.formatTime start))
  else return {
    traceID := lib.toLower s.traceID
    spanID := lib.toLower s.spanID
    parentSpanID := lib.toLower s.parentSpanID
    segmentID := ""
    isSegment := false
    transaction := ""
    op := s.op
    description := s.description
    group := ""
    repeats := 0
    status := s.status
    start
    duration := max (min ((finish - start) * 1000) maxDuration) 0
    selfTime := 0
    sampleRate := 0
    environment := ""
    release := ""
    serverName := ""
    attributes := attributesOf lib s }

/-- FNV-1a over 64 bits. -/
def fnv64a (bytes : List UInt8) : UInt64 :=
  bytes.foldl (fun h b => (h ^^^ b.toUInt64) * 1099511628211) 14695981039346656037

/-- A number's last `n` hex digits. -/
def hexDigits : ℕ → ℕ → List Char
  | 0, _ => []
  | n + 1, v => hexDigits n (v / 16) ++ [Nat.digitChar (v % 16)]

/-- The group of a Span's op and description: 16 hex digits. -/
def group (lib : Library) (op description : String) : String :=
  String.ofList (hexDigits 16 (fnv64a (op.toUTF8.toList ++ [0] ++
    (lib.normalised description).toUTF8.toList)).toNat)

/-- When a Span ends, in nanoseconds. -/
def Span.finish (s : Span) : ℤ := s.start * 1000 + s.duration

/-- The last of the Spans with an id. -/
def lastIndex (spans : List Span) (spanID : String) : Option ℕ :=
  ((List.range spans.length).filter fun i => (spans[i]?.map Span.spanID) = some spanID).getLast?

/-- Which Span is a Span's parent. One whose parent isn't in its Transaction is the segment's
child. -/
def parentIndex (spans : List Span) (i : ℕ) (s : Span) : ℕ :=
  match lastIndex spans s.parentSpanID with
  | some parent => if parent = i then 0 else parent
  | none => 0

/-- A Span's children. -/
def childrenOf (spans : List Span) (parent : ℕ) : List Span :=
  (spans.zipIdx.filter fun e => !e.1.isSegment && parentIndex spans e.2 e.1 = parent).map Prod.fst

/-- Add up intervals from their starts, counting overlaps once. `reached` is where the last one
ended. -/
def coveredFrom : ℤ → List (ℤ × ℤ) → ℤ
  | _, [] => 0
  | reached, (start, stop) :: rest =>
    let start := max start reached
    if start < stop then stop - start + coveredFrom stop rest else coveredFrom reached rest

/-- The zero `time.Time`, in nanoseconds. -/
def zeroTime : ℤ := -62135596800 * 1000000000

/-- How much of a Span's time its children cover, overlaps counted once. -/
def covered (parent : Span) (children : List Span) : ℤ :=
  let intervals := children.filterMap fun c =>
    let start := max (c.start * 1000) (parent.start * 1000)
    let stop := min c.finish parent.finish
    if start < stop then some (start, stop) else none
  coveredFrom zeroTime (intervals.mergeSort fun a b => decide (a.1 ≤ b.1))

/-- Set each Span's self time: its duration less the time its children cover within it. -/
def setSelfTimes (spans : List Span) : List Span :=
  spans.zipIdx.map fun e =>
    { e.1 with selfTime := e.1.duration - covered e.1 (childrenOf spans e.2) }

/-- How many Spans of a Transaction are in a group, a `uint32`. -/
def groupCount (spans : List Span) (group : String) : ℕ :=
  (spans.filter fun s => !s.isSegment && s.group = group).length % 2 ^ 32

/-- A Transaction's name: of one named by its raw URL, or by nothing, not as sent. -/
def transactionName (p : TransactionPayload) : String :=
  if p.source = "" ∨ p.source = "url" then unparameterisedTransaction else p.transaction

/-- The segment's row: the trace context's, with the Transaction's own times, name and tags. -/
def segmentRow (lib : Library) (p : TransactionPayload) : Except String Span := do
  let row ← spanRow lib { p.trace with
    startTimestamp := p.startTimestamp
    timestamp := p.timestamp
    description := p.transaction
    tags := p.tags }
  return { row with
    isSegment := true
    attributes := if transactionName p ≠ p.transaction then
        setAttribute row.attributes rawTransactionAttribute p.transaction
      else row.attributes }

/-- A row with what its Transaction gives it. -/
def inTransaction (lib : Library) (transaction : Transaction) (p : TransactionPayload)
    (segment s : Span) : Span :=
  { s with
    segmentID := segment.spanID
    transaction := transactionName p
    sampleRate := transaction.sampleRate
    environment := p.environment
    release := p.release
    serverName := p.serverName
    group := group lib s.op s.description }

/-- Set how many Spans of the Transaction are in each Span's group: 1 for a segment. -/
def setRepeats (spans : List Span) : List Span :=
  spans.map fun s => { s with repeats := if s.isSegment then 1 else groupCount spans s.group }

/-- A Transaction's rows: its segment, then each of its Spans. -/
def spansOf (lib : Library) (transaction : Transaction) : Except String (List Span) := do
  let p ← (lib.unmarshalTransaction transaction.payload).mapError unreadable
  if p.trace.traceID = "" ∨ p.trace.spanID = "" then
    throw (unreadable "it has no trace context")
  else
    let segment ← segmentRow lib p
    let rest ← p.spans.mapM fun s => do
      let span ← spanRow lib s
      return { span with traceID := segment.traceID }
    let spans := (segment :: rest).map (inTransaction lib transaction p segment)
    return setSelfTimes (setRepeats spans)

/-- A computation in two parts succeeds when both do. -/
theorem bind_eq_ok_iff {α β : Type} {x : Except String α} {f : α → Except String β} {b : β} :
    (x >>= f) = .ok b ↔ ∃ a, x = .ok a ∧ f a = .ok b := by
  cases x <;> simp [bind, Except.bind]

/-- A list of computations succeeds when each of them does. -/
theorem mapM_eq_ok_iff {α β : Type} {f : α → Except String β} {xs : List α} {ys : List β} :
    xs.mapM f = .ok ys ↔ List.Forall₂ (fun x y => f x = .ok y) xs ys := by
  induction xs generalizing ys with
  | nil =>
    rw [List.mapM_nil, List.forall₂_nil_left_iff]
    exact ⟨fun h => (Except.ok.inj h).symm, fun h => h ▸ rfl⟩
  | cons x rest ih =>
    rw [List.mapM_cons, bind_eq_ok_iff, List.forall₂_cons_left_iff]
    constructor
    · rintro ⟨y, hy, h⟩
      obtain ⟨ys', hys', h⟩ := bind_eq_ok_iff.1 h
      exact ⟨y, ys', hy, ih.1 hys', (Except.ok.inj h).symm⟩
    · rintro ⟨y, ys', hy, hys', rfl⟩
      exact ⟨y, hy, bind_eq_ok_iff.2 ⟨ys', ih.2 hys', rfl⟩⟩

/-- What stands in one list has what it is related to in the other. -/
theorem exists_of_mem_forall₂ {α β : Type} {R : α → β → Prop} {xs : List α} {ys : List β}
    (h : List.Forall₂ R xs ys) {y : β} (hy : y ∈ ys) : ∃ x ∈ xs, R x y := by
  induction h with
  | nil => cases hy
  | @cons x _ xs _ hxy _ ih =>
    rcases List.mem_cons.mp hy with rfl | hy
    · exact ⟨x, List.mem_cons_self, hxy⟩
    · obtain ⟨x', hx', hrel⟩ := ih hy
      exact ⟨x', List.mem_cons_of_mem x hx', hrel⟩

/-- A row is not yet a segment's. -/
theorem isSegment_of_spanRow {lib : Library} {s : SpanPayload} {row : Span}
    (h : spanRow lib s = .ok row) : row.isSegment = false := by
  rw [spanRow] at h
  obtain ⟨start, -, h⟩ := bind_eq_ok_iff.1 h
  obtain ⟨finish, -, h⟩ := bind_eq_ok_iff.1 h
  split at h
  · simp [throw, throwThe, MonadExceptOf.throw] at h
  · obtain rfl := Except.ok.inj h
    rfl

/-- Setting self times leaves which Span is the segment. -/
theorem isSegment_setSelfTimes (spans : List Span) :
    (setSelfTimes spans).map Span.isSegment = spans.map Span.isSegment := by
  have hfst : (spans.zipIdx.map Prod.fst).map Span.isSegment = spans.map Span.isSegment :=
    congrArg (List.map Span.isSegment) (List.zipIdx_map_fst 0 spans)
  rw [setSelfTimes, List.map_map, ← hfst, List.map_map]
  rfl

/-- A readable Transaction's rows are its segment, and then rows that are not segments. -/
theorem isSegment_spansOf {lib : Library} {transaction : Transaction} {spans : List Span}
    (h : spansOf lib transaction = .ok spans) :
    ∃ n, spans.map Span.isSegment = true :: List.replicate n false := by
  rw [spansOf] at h
  obtain ⟨p, -, h⟩ := bind_eq_ok_iff.1 h
  split at h
  · simp [throw, throwThe, MonadExceptOf.throw] at h
  · obtain ⟨segment, hsegment, h⟩ := bind_eq_ok_iff.1 h
    obtain ⟨rest, hrest, h⟩ := bind_eq_ok_iff.1 h
    obtain rfl := Except.ok.inj h
    have hfirst : segment.isSegment = true := by
      rw [segmentRow] at hsegment
      obtain ⟨row, -, hrow⟩ := bind_eq_ok_iff.1 hsegment
      obtain rfl := Except.ok.inj hrow
      rfl
    have hothers : ∀ s ∈ rest, s.isSegment = false := by
      intro s hs
      obtain ⟨payload, -, hspan⟩ := exists_of_mem_forall₂ (mapM_eq_ok_iff.1 hrest) hs
      obtain ⟨span, hrow, hspan⟩ := bind_eq_ok_iff.1 hspan
      obtain rfl := Except.ok.inj hspan
      change span.isSegment = false
      exact isSegment_of_spanRow hrow
    refine ⟨rest.length, ?_⟩
    rw [isSegment_setSelfTimes, setRepeats, List.map_map, List.map_map, List.map_cons]
    change segment.isSegment :: rest.map Span.isSegment = _
    rw [hfirst, List.map_eq_replicate_iff.mpr hothers]

end SolidTrace.SpanProcessing
