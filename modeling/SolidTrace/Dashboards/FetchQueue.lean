import Mathlib.Data.List.Range
import Mathlib.Logic.Function.Basic
import SolidTrace.Lib.Transition

/-!
# The chart fetch queue

Runs a Dashboard's charts a few at a time. A newer run of a chart supersedes the older one, and an aborted
run's slot is free at once. The steps are the calls of the queue, a task's promise settling, and the
microtasks: what follows a settled promise, and the pump that a cancel leaves.
-/

namespace SolidTrace.Dashboards

section Model

variable (Key V E : Type)

/-- How a task's promise settles. -/
inductive Outcome where
  | resolved (value : V)
  | rejected (error : E)

/-- How a run's promise is settled. -/
inductive Settlement where
  | outcome (o : Outcome V E)
  | abortError

/-- A run, the `id`th of the queue's. Its task throws at once, or gives a promise. -/
structure Entry where
  id : ℕ
  key : Key
  throws : Option E

/-- Where a run's task is: not called, not settled, settled with what follows still to run, or done. -/
inductive Answer where
  | none
  | pending (entry : Entry Key E)
  | settled (entry : Entry Key E) (o : Outcome V E)
  | delivered (o : Outcome V E)

structure Queue where
  waiting : List (Entry Key E)
  /-- The values of the map, in the order of its keys. -/
  inFlight : List (Entry Key E)
  /-- Every run, in order. -/
  created : List (Entry Key E)
  /-- The runs whose tasks were called, in order. -/
  started : List (Entry Key E)
  aborted : ℕ → Bool
  /-- The calls of each promise's resolve and reject. -/
  settlements : ℕ → List (Settlement V E)
  answers : ℕ → Answer Key V E
  /-- The pumps still to run. -/
  pumps : ℕ

inductive Event where
  | run (key : Key) (throws : Option E)
  | cancel (key : Key)
  | abortAll
  /-- A task's promise settles. -/
  | answer (id : ℕ) (o : Outcome V E)
  /-- What follows a settled promise runs. -/
  | callback (id : ℕ)
  | pump

variable {Key V E}

def Queue.init : Queue Key V E :=
  ⟨[], [], [], [], fun _ => false, fun _ => [], fun _ => .none, 0⟩

namespace Queue

section Map

variable [DecidableEq Key]

def get (inFlight : List (Entry Key E)) (key : Key) : Option (Entry Key E) := inFlight.find? (·.key = key)

/-- `Map.prototype.set`, which keeps a key's place. -/
def set (inFlight : List (Entry Key E)) (e : Entry Key E) : List (Entry Key E) :=
  if inFlight.any (·.key = e.key) then inFlight.map fun f => if f.key = e.key then e else f
  else inFlight ++ [e]

def delete (inFlight : List (Entry Key E)) (key : Key) : List (Entry Key E) :=
  inFlight.filter fun f => f.key ≠ key

end Map

/-- `waiting.splice(waiting.indexOf(entry), 1)`, which takes the last when the entry isn't there. -/
def splice (waiting : List (Entry Key E)) (e : Entry Key E) : List (Entry Key E) :=
  match waiting.findIdx? (·.id = e.id) with
  | some i => waiting.eraseIdx i
  | none => waiting.dropLast

/-- Adds a call of a promise's resolve or reject. -/
def settlePromise (s : Queue Key V E) (id : ℕ) (how : Settlement V E) : Queue Key V E :=
  { s with settlements := Function.update s.settlements id (s.settlements id ++ [how]) }

variable [DecidableEq Key] (limit : ℕ)

def start (s : Queue Key V E) (e : Entry Key E) : Queue Key V E :=
  { s with
    inFlight := set s.inFlight e
    started := s.started ++ [e]
    answers := Function.update s.answers e.id
      (match e.throws with
        | some error => .settled e (.rejected error)
        | none => .pending e) }

/-- Starts waiting runs while a slot is free. -/
def pumpFrom : List (Entry Key E) → Queue Key V E → Queue Key V E
  | [], s => s
  | e :: rest, s =>
    if s.inFlight.length < limit then pumpFrom rest (start { s with waiting := rest } e) else s

def pump (s : Queue Key V E) : Queue Key V E := pumpFrom limit s.waiting s

def abort (s : Queue Key V E) (e : Entry Key E) : Queue Key V E :=
  let s := { s with aborted := Function.update s.aborted e.id true }
  let s := s.settlePromise e.id .abortError
  if (get s.inFlight e.key).map Entry.id = some e.id then { s with inFlight := delete s.inFlight e.key }
  else { s with waiting := splice s.waiting e }

def find (s : Queue Key V E) (key : Key) : Option (Entry Key E) :=
  (get s.inFlight key).or (s.waiting.find? (·.key = key))

/-- A new run, at the end of those waiting. -/
def push (s : Queue Key V E) (key : Key) (throws : Option E) : Queue Key V E :=
  let e : Entry Key E := ⟨s.created.length, key, throws⟩
  { s with created := s.created ++ [e], waiting := s.waiting ++ [e] }

def run (s : Queue Key V E) (key : Key) (throws : Option E) : Queue Key V E :=
  let s := match s.find key with
    | some older => s.abort older
    | none => s
  pump limit (s.push key throws)

def cancel (s : Queue Key V E) (key : Key) : Queue Key V E :=
  match s.find key with
  | some e => { s.abort e with pumps := s.pumps + 1 }
  | none => s

def abortAll (s : Queue Key V E) : Queue Key V E := (s.inFlight ++ s.waiting).foldl abort s

/-- An entry's task has settled. An aborted entry was rejected when it was aborted, and its slot freed. -/
def settle (s : Queue Key V E) (e : Entry Key E) (o : Outcome V E) : Queue Key V E :=
  if s.aborted e.id then s
  else
    let s := { s with inFlight := delete s.inFlight e.key }
    pump limit (s.settlePromise e.id (.outcome o))

/-- The state after an event, when it can happen. -/
def step (s : Queue Key V E) : Event Key V E → Option (Queue Key V E)
  | .run key throws => some (s.run limit key throws)
  | .cancel key => some (s.cancel key)
  | .abortAll => some s.abortAll
  | .answer id o =>
    match s.answers id with
    | .pending e => some { s with answers := Function.update s.answers id (.settled e o) }
    | _ => none
  | .callback id =>
    match s.answers id with
    | .settled e o => some ({ s with answers := Function.update s.answers id (.delivered o) }.settle limit e o)
    | _ => none
  | .pump => if s.pumps = 0 then none else some ({ s with pumps := s.pumps - 1 }.pump limit)

end Queue

end Model

end SolidTrace.Dashboards
