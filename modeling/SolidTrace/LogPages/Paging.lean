import SolidTrace.LogPages.Cursor
import SolidTrace.LogPages.ScanReads
import SolidTrace.LogQuery.Compiled
import SolidTrace.LogQuery.Timeless

/-!
# Paging through a Query's Logs

A request for a page of a Query of Log rows, and following the cursor each page gives until there is
none: the pages together are the Query's Logs, each once, newest first, cut at the Query's smallest
take. Each request compiles the Query anew at its own time, so this is of Queries that don't read the
time, or of pages that are all run at one.
-/

namespace SolidTrace.LogPages

open LogQuery

section Handler

variable (ch : ClickHouse) (lib : Library) (p : Project) (q : Query)

def defaultQueryLogs : ℤ := 200

def maxQueryLogs : ℤ := 1000

/-- How many Logs a page has at most: the default for none, and never more than `maxQueryLogs`. -/
def limitOf (requested : ℤ) : Option ℕ :=
  if requested < 0 then none
  else if requested = 0 then some defaultQueryLogs.toNat
  else some (min requested maxQueryLogs).toNat

/-- A request's limit, the clock's time when it is run, and where the budget of its scan is spent. -/
structure Ask where
  limit : ℤ
  now : ℤ
  spent : ℕ → Bool

inductive Answer where
  | badRequest (error : String)
  | mistakes (error : LogQuery.Error)
  /-- A Query that returns a table is answered with one, whatever the limit and the cursor. -/
  | table
  | logs (logs : List Log) (next : Option Text)

/-- What a request's cursor says, with -1 Logs left for no take. An empty one is none. -/
def cursorOf (cursor : Text) : Option (Option LogPosition × ℤ) :=
  if cursor = [] then some (none, -1)
  else (decodeCursor cursor).map fun (pos, left) => (some pos, left)

/-- Refuse a Query whose source names Logs other than those of the Project whose slug is given. -/
def checkSource (tree : Syntax.Query) (slug : String) : Except LogQuery.Error Unit :=
  match tree.source with
  | none => .ok ()
  | some source =>
    if slug = "" then .ok ()
    else if source.name ≠ "logs" ∧ source.name ≠ slug then
      .error ⟨source.span, s!"expected ['{slug}'], this Project's slug, or logs, got {lib.quote source.name}"⟩
    else .ok ()

/-- Compile a Query for a Project, whose slug is checked where it can be read. -/
def compile (slug : Option String) (env : Env) (tree : Syntax.Query) : Except LogQuery.Error Query :=
  match compileQuery env tree with
  | .error e => .error e
  | .ok q =>
    match slug with
    | none => .ok q
    | some slug =>
      match checkSource env.lib tree slug with
      | .error e => .error e
      | .ok () => .ok q

/-- The scan for a page of a compiled Query, with so many Logs left of its take, or -1 for no
take. -/
def scanOf (ask : Ask) (limit : ℕ) (after : Option LogPosition) (left : ℤ) : LogScan where
  fromTime := q.fromTime
  toTime := q.toTime
  after := after
  filter := q.filter lib
  limit := if 0 ≤ left then min limit left.toNat else limit
  spent := ask.spent

/-- A page of a compiled Query over a Project's Logs, from a position on. -/
def pageFrom (ask : Ask) (limit : ℕ) (after : Option LogPosition) (left : ℤ) : Answer :=
  let page := p.scanLogs ch (scanOf lib q ask limit after left)
  let left := if 0 ≤ left then left - page.logs.length else left
  .logs page.logs (if left ≠ 0 then page.next.map (encodeCursor · left) else none)

variable (slug : Option String) (env : Env) (tree : Syntax.Query)

/-- Run a Query over a Project's Logs. It is compiled at the time of the request. -/
def query (ask : Ask) (cursor : Text) : Answer :=
  match limitOf ask.limit with
  | none => .badRequest "limit must be a positive whole number"
  | some limit =>
    match cursorOf cursor with
    | none => .badRequest "invalid cursor"
    | some (after, left) =>
      match compile slug (env.runAt ask.now) tree with
      | .error e => .mistakes e
      | .ok q =>
        if q.table then .table
        else
          let left := match q.take with
            | some take => if cursor = [] ∨ left < 0 then (take : ℤ) else left
            | none => left
          pageFrom ch env.lib p q ask limit after left

/-- Follow `next_cursor` for so many pages, or until it is null: the Logs of the pages, and the
cursor to go on from. -/
def follow : (ℕ → Ask) → ℕ → Text → List Log × Option Text
  | _, 0, cursor => ([], some cursor)
  | asks, n + 1, cursor =>
    match query ch p slug env tree (asks 0) cursor with
    | .logs logs none => (logs, none)
    | .logs logs (some next) =>
      let (more, cursor) := follow (fun i => asks (i + 1)) n next
      (logs ++ more, cursor)
    | _ => ([], some cursor)

end Handler

section Pages

variable {ch : ClickHouse} {lib : Library} {p : Project} {q : Query}

/-- A Query's Logs, newest first. -/
def rows (ch : ClickHouse) (lib : Library) (p : Project) (q : Query) : List Log :=
  p.wanted ch (q.fromTime, q.toTime) (q.filter lib)

/-- Logs, cut where a take has given all it has left. -/
def cut (left : ℤ) (logs : List Log) : List Log := if 0 ≤ left then logs.take left.toNat else logs

/-- A limit that is allowed asks for at least one Log. -/
theorem limitOf_pos {requested : ℤ} (h : 0 ≤ requested) :
    ∃ limit, limitOf requested = some limit ∧ 0 < limit := by
  unfold limitOf defaultQueryLogs maxQueryLogs
  rw [if_neg (by omega)]
  split
  · exact ⟨_, rfl, by decide⟩
  · exact ⟨_, rfl, by omega⟩

/-- A take is cut through the Logs of one read and what is left for the next. -/
theorem cut_append {left : ℤ} {logs rest : List Log} (h : 0 ≤ left → logs.length ≤ left.toNat) :
    cut left (logs ++ rest) = logs ++ cut (if 0 ≤ left then left - logs.length else left) rest := by
  unfold cut
  by_cases hleft : 0 ≤ left
  · have hlength := h hleft
    simp only [hleft, if_true]
    rw [if_pos (by omega), List.take_append, List.take_of_length_le hlength]
    congr 2
    omega
  · simp [hleft]

/-- Where a page leaves off: at the end of what is left, or at a position with the rest after it. -/
structure LeavesOff (ch : ClickHouse) (lib : Library) (p : Project) (q : Query)
    (after : Option LogPosition) (left : ℤ) (logs : List Log) (pos : LogPosition) (left' : ℤ) :
    Prop where
  goesOn : pos.goesOn (q.fromTime, q.toTime)
  left_ne : left' ≠ 0
  left_ge : -1 ≤ left'
  left_le : left' ≤ left
  left_neg : left' < 0 ↔ left < 0
  rest : logs ++ cut left' (afterAll (some pos) (rows ch lib p q)) =
    cut left (afterAll after (rows ch lib p q))
  lessLeft : leftToRead ch p (q.fromTime, q.toTime) (q.filter lib) (some pos) <
    leftToRead ch p (q.fromTime, q.toTime) (q.filter lib) after

/-- A page gives the first of the Logs that are left, and where it goes on are the others. -/
theorem pageFrom_reads {ask : Ask} {limit : ℕ} {after : Option LogPosition} {left : ℤ}
    (hlimit : 0 < limit) (hleft : -1 ≤ left)
    (hafter : ∀ pos, after = some pos → pos.goesOn (q.fromTime, q.toTime)) :
    ∃ logs, (pageFrom ch lib p q ask limit after left = .logs logs none ∧
        logs = cut left (afterAll after (rows ch lib p q))) ∨
      ∃ pos left', pageFrom ch lib p q ask limit after left = .logs logs (some (encodeCursor pos left')) ∧
        LeavesOff ch lib p q after left logs pos left' := by
  by_cases hzero : left = 0
  · -- take 0 reads nothing.
    subst hzero
    refine ⟨[], .inl ⟨?_, by simp [cut]⟩⟩
    simp [pageFrom, scanOf, Project.scanLogs]
  · have hpos : 0 < (scanOf lib q ask limit after left).limit := by
      simp only [scanOf]
      split <;> omega
    obtain ⟨hlength, hnext⟩ := @Project.scanLogs_page ch p _ hpos hafter
    unfold pageFrom
    simp only
    generalize p.scanLogs ch (scanOf lib q ask limit after left) = page at hlength hnext ⊢
    have hfits : 0 ≤ left → page.logs.length ≤ left.toNat := by
      intro h
      simp only [scanOf, if_pos h] at hlength
      omega
    refine ⟨page.logs, ?_⟩
    cases hn : page.next with
    | none =>
      rw [hn] at hnext
      have hcut := @cut_append left page.logs [] hfits
      rw [List.append_nil, show cut _ ([] : List Log) = [] by simp [cut], List.append_nil, hnext] at hcut
      exact .inl ⟨by simp, hnext.trans hcut.symm⟩
    | some pos =>
      rw [hn] at hnext
      obtain ⟨hgoesOn, hrest, hless⟩ := hnext
      have hcut := @cut_append left page.logs (afterAll (some pos) (rows ch lib p q)) hfits
      rw [show page.logs ++ afterAll (some pos) (rows ch lib p q) = afterAll after (rows ch lib p q)
        from hrest] at hcut
      by_cases hdone : (if 0 ≤ left then left - page.logs.length else left) = 0
      · refine .inl ⟨by simp [hdone], ?_⟩
        rw [hcut, hdone]
        simp [cut]
      · refine .inr ⟨pos, if 0 ≤ left then left - page.logs.length else left, by simp [hdone], ?_⟩
        refine ⟨hgoesOn, hdone, ?_, ?_, ?_, hcut.symm, hless⟩
        · split <;> omega
        · split <;> omega
        · split <;> omega

/-- The Logs a take has to give, or -1 for no take. -/
def takeLeft (q : Query) : ℤ := match q.take with
  | some take => take
  | none => -1

/-- A cursor of a run: the first, or one that a page gave. -/
inductive AtCursor (q : Query) : Text → Option LogPosition → ℤ → Prop
  | first : AtCursor q [] none (takeLeft q)
  | next {pos : LogPosition} {left : ℤ} (hpos : pos.goesOn (q.fromTime, q.toTime)) (hne : left ≠ 0)
      (hlow : -1 ≤ left) (hhigh : left ≤ takeLeft q) (hneg : left < 0 ↔ takeLeft q < 0) :
      AtCursor q (encodeCursor pos left) (some pos) left

/-- A time that a scan goes on from can be written in a cursor. -/
theorem inYears_of_goesOn {range : ℤ × ℤ} {pos : LogPosition} (h : pos.goesOn range) :
    inYears pos.time := by
  have hfirst : firstStorableTime = 0 := rfl
  have hlast : endOfStorableTime = 5661792000000000000 := rfl
  obtain ⟨-, hstorable, -⟩ := h
  unfold inYears
  omega

/-- What a take has left is a count or the mark of no take. -/
theorem AtCursor.left_ge {cursor : Text} {after : Option LogPosition} {left : ℤ}
    (h : AtCursor q cursor after left) : -1 ≤ left := by
  cases h with
  | first =>
    unfold takeLeft
    split <;> omega
  | next _ _ hlow => exact hlow

/-- A cursor's position is one that a scan goes on from. -/
theorem AtCursor.goesOn {cursor : Text} {after : Option LogPosition} {left : ℤ}
    (h : AtCursor q cursor after left) :
    ∀ pos, after = some pos → pos.goesOn (q.fromTime, q.toTime) := by
  cases h with
  | first => nofun
  | next hpos =>
    rintro pos ⟨rfl⟩
    exact hpos

/-- The cursor that a page gives is one of the run. -/
theorem AtCursor.step {cursor : Text} {after : Option LogPosition} {left left' : ℤ} {logs : List Log}
    {pos : LogPosition} (h : AtCursor q cursor after left)
    (hoff : LeavesOff ch lib p q after left logs pos left') :
    AtCursor q (encodeCursor pos left') (some pos) left' := by
  have hle : left ≤ takeLeft q ∧ (left < 0 ↔ takeLeft q < 0) := by
    cases h with
    | first => exact ⟨le_rfl, Iff.rfl⟩
    | next _ _ _ hhigh hneg => exact ⟨hhigh, hneg⟩
  have hleft := hoff.left_le
  exact .next hoff.goesOn hoff.left_ne hoff.left_ge (by omega) (hoff.left_neg.trans hle.2)

variable {slug : Option String} {env : Env} {tree : Syntax.Query}

/-- A cursor of a run is understood. -/
theorem query_atCursor {ask : Ask} {cursor : Text} {after : Option LogPosition} {left : ℤ}
    (hask : 0 ≤ ask.limit) (hcompile : compile slug (env.runAt ask.now) tree = .ok q)
    (htable : q.table = false) (hint : takeLeft q < 9223372036854775808)
    (h : AtCursor q cursor after left) :
    ∃ limit, 0 < limit ∧
      query ch p slug env tree ask cursor = pageFrom ch env.lib p q ask limit after left := by
  obtain ⟨limit, hlimit, hpos⟩ := limitOf_pos hask
  refine ⟨limit, hpos, ?_⟩
  unfold query
  rw [hlimit]
  simp only
  cases h with
  | first =>
    simp only [cursorOf, if_true, hcompile, htable, Bool.false_eq_true, if_false, true_or, takeLeft]
  | @next pos left hgoesOn hne hlow hhigh hneg =>
    have hdecode := decodeCursor_encodeCursor (inYears_of_goesOn hgoesOn) hlow (by omega : left < _)
    have hcursor : encodeCursor pos left ≠ [] := by
      intro heq
      rw [heq] at hdecode
      simp [decodeCursor, Digits.decode64, Digits.octets] at hdecode
    simp only [cursorOf, hcursor, if_false, hdecode, Option.map_some, hcompile, htable,
      Bool.false_eq_true, false_or]
    unfold takeLeft at hneg
    cases htake : q.take with
    | none => rfl
    | some take =>
      rw [htake] at hneg
      simp only at hneg ⊢
      rw [if_neg (by omega)]

/-- The pages are the first and those that follow it. -/
theorem follow_next {asks : ℕ → Ask} {n : ℕ} {cursor next : Text} {logs : List Log}
    (h : query ch p slug env tree (asks 0) cursor = .logs logs (some next)) :
    follow ch p slug env tree asks (n + 1) cursor =
      (logs ++ (follow ch p slug env tree (fun i => asks (i + 1)) n next).1,
        (follow ch p slug env tree (fun i => asks (i + 1)) n next).2) := by
  rw [follow, h]

/-- A page with no cursor is the last. -/
theorem follow_last {asks : ℕ → Ask} {n : ℕ} {cursor : Text} {logs : List Log}
    (h : query ch p slug env tree (asks 0) cursor = .logs logs none) :
    follow ch p slug env tree asks (n + 1) cursor = (logs, none) := by
  rw [follow, h]

/-- Pages that compile to one Query give, once there is no cursor, all its Logs that are left. -/
theorem follow_exact {asks : ℕ → Ask} {n : ℕ} {cursor : Text} {after : Option LogPosition} {left : ℤ}
    (hasks : ∀ i, 0 ≤ (asks i).limit)
    (hcompile : ∀ i, compile slug (env.runAt (asks i).now) tree = .ok q) (htable : q.table = false)
    (hint : takeLeft q < 9223372036854775808) (h : AtCursor q cursor after left)
    (hend : (follow ch p slug env tree asks n cursor).2 = none) :
    (follow ch p slug env tree asks n cursor).1 = cut left (afterAll after (rows ch env.lib p q)) := by
  induction n generalizing asks cursor after left with
  | zero => cases hend
  | succ n ih =>
    obtain ⟨limit, hlimit, hquery⟩ := query_atCursor (hasks 0) (hcompile 0) htable hint h
    obtain ⟨logs, ⟨hpage, hlogs⟩ | ⟨pos, left', hpage, hoff⟩⟩ :=
      pageFrom_reads hlimit h.left_ge h.goesOn
    · rw [follow_last (hquery.trans hpage)]
      exact hlogs
    · rw [follow_next (hquery.trans hpage)] at hend ⊢
      rw [ih (fun i => hasks (i + 1)) (fun i => hcompile (i + 1)) (h.step hoff) hend, hoff.rest]

/-- Following the cursors comes to an end. -/
theorem follow_ends {asks : ℕ → Ask} {cursor : Text} {after : Option LogPosition} {left : ℤ}
    (hasks : ∀ i, 0 ≤ (asks i).limit)
    (hcompile : ∀ i, compile slug (env.runAt (asks i).now) tree = .ok q) (htable : q.table = false)
    (hint : takeLeft q < 9223372036854775808) (h : AtCursor q cursor after left) :
    ∃ n, (follow ch p slug env tree asks n cursor).2 = none := by
  induction hleft : leftToRead ch p (q.fromTime, q.toTime) (q.filter env.lib) after using
    Nat.strong_induction_on generalizing asks cursor after left with
  | _ k ih =>
    obtain ⟨limit, hlimit, hquery⟩ := query_atCursor (hasks 0) (hcompile 0) htable hint h
    obtain ⟨logs, ⟨hpage, hlogs⟩ | ⟨pos, left', hpage, hoff⟩⟩ :=
      pageFrom_reads hlimit h.left_ge h.goesOn
    · exact ⟨1, by rw [follow_last (hquery.trans hpage)]⟩
    · obtain ⟨n, hn⟩ := ih _ (hleft ▸ hoff.lessLeft) (fun i => hasks (i + 1))
        (fun i => hcompile (i + 1)) (h.step hoff) rfl
      exact ⟨n + 1, by rw [follow_next (hquery.trans hpage), hn]⟩

end Pages

section Takes

/-- How many rows a take gives. -/
def takeCount : Stage → Option ℕ
  | .takeStage n => some n
  | _ => none

/-- A Query's take is its smallest. -/
theorem takeOf_eq_min (tail : List Stage) : takeOf tail = (tail.filterMap takeCount).min? := by
  have hnone : (tail.filterMap takeCount).min? = ((none : Option ℕ).toList ++ tail.filterMap takeCount).min? := rfl
  rw [takeOf, hnone]
  clear hnone
  generalize (none : Option ℕ) = take
  induction tail generalizing take with
  | nil => cases take <;> rfl
  | cons s rest ih =>
    rw [List.foldl_cons, ih]
    cases s with
    | takeStage n =>
      cases take with
      | none => rfl
      | some m =>
        have hmin : (if n < m then n else m) = min m n := by
          split <;> omega
        simp only [takeCount, List.filterMap_cons, Option.toList_some, List.singleton_append,
          List.min?_cons', List.foldl_cons, hmin]
    | _ => rfl

/-- A compiled Query's takes are numbers of 64 bits. -/
theorem compileQuery_takes {env : Env} {tree : Syntax.Query} {q : Query}
    (h : compileQuery env tree = .ok q) : ∀ n ∈ q.tail.filterMap takeCount, n ≤ 9223372036854775807 := by
  intro n hn
  rw [List.mem_filterMap] at hn
  obtain ⟨s, hs, hcount⟩ := hn
  obtain ⟨before, scope, hchecked⟩ := (compileQuery_checked h).tail.mem hs
  cases s <;> cases hcount
  exact hchecked

end Takes

section Compiled

/-- Where a Project keeps a Log that can be read: the columns of its row. -/
def Project.Keeps (p : Project) (log : Log) (cols : Columns) : Prop :=
  (log ∈ p.table ∧ cols = clickHouseColumns none) ∨
    ∃ file ∈ p.files, file.readable p.bucket = true ∧ log ∈ file.logs ∧ cols = file.columns

/-- A Log that is kept reads its own time as its row has it. -/
theorem Project.Keeps.timed {p : Project} {log : Log} {cols : Columns} (h : p.Keeps log cols)
    (ch : ClickHouse) : (cols.builtIn "time").eval ch [] log.row = some (.time log.micros) := by
  rcases h with ⟨hlog, rfl⟩ | ⟨file, -, -, hlog, rfl⟩
  · exact p.timed ch log hlog
  · exact file.timed ch log hlog

variable {env : Env} {tree : Syntax.Query} {q : Query} {ch : ClickHouse} {p : Project}

/-- A Query's Logs are those of its bounds that pass its head. -/
theorem mem_rows (h : compileQuery env tree = .ok q) (log : Log) :
    log ∈ rows ch env.lib p q ↔
      within (env.bounds.fromTime, env.bounds.toTime) log.micros ∧
      ∃ cols, p.Keeps log cols ∧ q.passesHead ch env.lib cols log.row := by
  have hkept : log ∈ rows ch env.lib p q ↔ ∃ cols, p.Keeps log cols ∧
      within (q.fromTime, q.toTime) log.micros ∧ q.passesHead ch env.lib cols log.row := by
    simp only [rows, Project.wanted, mem_newestFirst, Project.mem_selected, wants, Bool.and_eq_true,
      decide_eq_true_eq, Query.filter_keeps_iff, Project.Keeps]
    constructor
    · rintro (⟨hlog, hpasses⟩ | ⟨file, hfile, hreadable, hlog, hpasses⟩)
      · exact ⟨_, .inl ⟨hlog, rfl⟩, hpasses⟩
      · exact ⟨_, .inr ⟨file, hfile, hreadable, hlog, rfl⟩, hpasses⟩
    · rintro ⟨cols, ⟨hlog, rfl⟩ | ⟨file, hfile, hreadable, hlog, rfl⟩, hpasses⟩
      · exact .inl ⟨hlog, hpasses⟩
      · exact .inr ⟨file, hfile, hreadable, hlog, hpasses⟩
  have hnarrow : ∀ cols, p.Keeps log cols → q.passesHead ch env.lib cols log.row →
      (within (q.fromTime, q.toTime) log.micros ↔
        within (env.bounds.fromTime, env.bounds.toTime) log.micros) := by
    intro cols hcols hhead
    rw [compileQuery_range h]
    exact within_narrow (hcols.timed ch) (Query.passesHead_iff.1 hhead) _
  rw [hkept]
  constructor
  · rintro ⟨cols, hcols, hwithin, hhead⟩
    exact ⟨(hnarrow cols hcols hhead).1 hwithin, cols, hcols, hhead⟩
  · rintro ⟨hwithin, cols, hcols, hhead⟩
    exact ⟨cols, hcols, (hnarrow cols hcols hhead).2 hwithin, hhead⟩

/-- What a take has left fits a cursor. -/
theorem takeLeft_lt (h : compileQuery env tree = .ok q) : takeLeft q < 9223372036854775808 := by
  have htake := (compileQuery_checked h).take
  rw [takeOf_eq_min] at htake
  unfold takeLeft
  split
  next n hn =>
    rw [hn] at htake
    have := compileQuery_takes h n (List.min?_mem htake.symm)
    omega
  · omega

variable {slug : Option String}

/-- A Query compiles for a Project to what it compiles to. -/
theorem compileQuery_of_compile (h : compile slug env tree = .ok q) : compileQuery env tree = .ok q := by
  unfold compile at h
  split at h
  · cases h
  next hq =>
    split at h
    · rw [hq, h]
    · split at h
      · cases h
      · rw [hq, h]

/-- A Query that reads no time compiles for a Project alike whenever it is run. -/
theorem compile_timeless (h : tree.callsTime = false) (t t' : ℤ) :
    compile slug (env.runAt t) tree = compile slug (env.runAt t') tree := by
  unfold compile
  rw [compileQuery_timeless h, compileQuery_timeless h]
  rfl

/-- Following the cursors from the first page comes to an end, with the Query's Logs, cut at its
take. -/
theorem follow_rows {asks : ℕ → Ask} (hasks : ∀ i, 0 ≤ (asks i).limit)
    (hcompile : ∀ i, compile slug (env.runAt (asks i).now) tree = .ok q) (htable : q.table = false) :
    (∃ n, (follow ch p slug env tree asks n []).2 = none) ∧
    ∀ n, (follow ch p slug env tree asks n []).2 = none →
      (follow ch p slug env tree asks n []).1 = cut (takeLeft q) (rows ch env.lib p q) := by
  have hint := takeLeft_lt (compileQuery_of_compile (hcompile 0))
  refine ⟨follow_ends hasks hcompile htable hint .first, fun n hn => ?_⟩
  have hall : afterAll none (rows ch env.lib p q) = rows ch env.lib p q := by simp [afterAll]
  rw [follow_exact hasks hcompile htable hint .first hn, hall]

/-- What a Query's takes leave of the Logs is the least of them. -/
theorem cut_takeLeft (h : compileQuery env tree = .ok q) (logs : List Log) :
    cut (takeLeft q) logs = match (q.tail.filterMap takeCount).min? with
      | some n => logs.take n
      | none => logs := by
  rw [← takeOf_eq_min, ← (compileQuery_checked h).take]
  unfold takeLeft cut
  split <;> simp

/-- Pages lose and repeat nothing. Of the Logs a Project keeps where they can be read, those of a
range, cut to the microsecond, that pass a Query's head are on its pages, each once, newest first, up
to its smallest take, whatever the pages' limits and wherever their budgets stop them. Each page
compiles the Query at its own time, so this is of a Query that calls neither `now()` nor `ago(…)`, or of
pages run at one time. A cursor gives back the position and how much is left. -/
theorem pages_exact {t : ℤ} (h : compile slug (env.runAt t) tree = .ok q) (htable : q.table = false) :
    (∀ (ch : ClickHouse) (p : Project), ∃ all : List Log,
      all.Pairwise Newer ∧
      (∀ log, log ∈ all ↔ within (env.bounds.fromTime, env.bounds.toTime) log.micros ∧
        ∃ cols, p.Keeps log cols ∧ q.passesHead ch env.lib cols log.row) ∧
      ∀ asks : ℕ → Ask, (∀ i, 0 ≤ (asks i).limit) →
        (tree.callsTime = false ∨ ∀ i, (asks i).now = t) →
        (∃ n, (follow ch p slug env tree asks n []).2 = none) ∧
        ∀ n, (follow ch p slug env tree asks n []).2 = none →
          (follow ch p slug env tree asks n []).1 = match (q.tail.filterMap takeCount).min? with
            | some n => all.take n
            | none => all) ∧
    ∀ (pos : LogPosition) (left : ℤ), inYears pos.time → -1 ≤ left → left < 9223372036854775808 →
      decodeCursor (encodeCursor pos left) = some (pos, left) := by
  have hcompiled := compileQuery_of_compile h
  refine ⟨fun ch p => ⟨rows ch env.lib p q, p.selected_newer _, @mem_rows (env.runAt t) tree q ch p hcompiled,
    fun asks hasks htime => ?_⟩, fun pos left hpos hlow hhigh => decodeCursor_encodeCursor hpos hlow hhigh⟩
  have hcompile : ∀ i, compile slug (env.runAt (asks i).now) tree = .ok q := by
    intro i
    cases htime with
    | inl htimeless => rw [compile_timeless htimeless _ t, h]
    | inr hone => rw [hone, h]
  obtain ⟨hends, hexact⟩ := @follow_rows env tree q ch p slug asks hasks hcompile htable
  exact ⟨hends, fun n hn => (hexact n hn).trans (cut_takeLeft hcompiled _)⟩

/-- Bounds that end half a microsecond after the fifth. -/
private def halfEnv : Env := ⟨Library.readsNothing, "", ⟨0, 5500, 0⟩, 0, fun _ => [], false⟩

/-- The Query of every Log. -/
private def everyLog : Syntax.Query := ⟨none, []⟩

private def everyLogQuery : Query where
  head := []
  tail := []
  fromTime := 0
  toTime := 5500
  parameters := []
  table := false
  take := none
  reads := []
  output := []
  shape := ⟨fun _ => none, false⟩

/-- `where time > now()`. -/
private def laterLogs : Syntax.Query :=
  ⟨none, [.whereStage .null .null (.binary (.ident ⟨"time", .null, false⟩) .null .gt
    (.call ⟨"now", .null, false⟩ .null [] .null))]⟩

/-- What it compiles to in a run at a time. -/
private def laterLogsQuery (t : ℤ) : Query :=
  { everyLogQuery with
    head := [.whereStage (.compare (.fieldRef "time" true .time) .gt (.literal (.dateTime t)))]
    fromTime := t + 1000 }

/-- A Log at the start of a microsecond. -/
private def logAt (micros : ℤ) : Log :=
  ⟨micros, 1, fun name => if name == "time" then some (.time micros) else none⟩

/-- A Project with Logs at the third, the fourth and the fifth microsecond. -/
private def threeLogs : Project where
  table := [logAt 3, logAt 4, logAt 5]
  files := []
  bucket := false
  timed := by
    intro ch log hlog
    simp only [List.mem_cons, List.not_mem_nil, or_false] at hlog
    rcases hlog with rfl | rfl | rfl <;> rfl
  apart := by simp [logAt]
  storable := by
    intro log hlog
    simp only [List.flatMap_nil, List.append_nil, List.mem_cons, List.not_mem_nil, or_false] at hlog
    rcases hlog with rfl | rfl | rfl <;> decide

/-- Pages of one Log, the first at the second microsecond, each two microseconds after the one before. -/
private def slowPages (i : ℕ) : Ask := ⟨1, 2000 + 2000 * i, fun _ => false⟩

private def fewFunctions : ClickHouse := ⟨fun _ _ => none, fun _ _ => none⟩

/-- The Query of the slow run compiles. -/
private theorem everyLog_compiles : compile none (halfEnv.runAt 2000) everyLog = .ok everyLogQuery := rfl

/-- The pages of every Log hold the Logs of the range, newest first. -/
theorem pages_exact_everyLog :
    compile none (halfEnv.runAt 2000) everyLog = .ok everyLogQuery ∧
    ∃ n, follow fewFunctions threeLogs none halfEnv everyLog slowPages n [] =
      ([logAt 4, logAt 3], none) := by
  refine ⟨everyLog_compiles, ?_⟩
  obtain ⟨all, hsorted, hmem, hfollow⟩ := (pages_exact everyLog_compiles rfl).1 fewFunctions threeLogs
  have hall : all = [logAt 4, logAt 3] := by
    apply StrictOrder.eq_of_mem_iff Newer.asymm hsorted (by simp [Newer, logAt])
    intro log
    rw [hmem]
    constructor
    · intro h
      obtain ⟨hwithin, cols, hcols, -⟩ := h
      cases hcols with
      | inl htable =>
        simp only [threeLogs, List.mem_cons, List.not_mem_nil, or_false] at htable
        rcases htable.1 with rfl | rfl | rfl
        · exact List.mem_cons_of_mem _ (List.mem_singleton_self _)
        · exact List.mem_cons_self
        · exact absurd hwithin (by decide)
      | inr hfile => simp [threeLogs] at hfile
    · intro h
      simp only [List.mem_cons, List.not_mem_nil, or_false] at h
      rcases h with rfl | rfl
      · exact ⟨by decide, _, .inl ⟨by simp [threeLogs], rfl⟩, fun w hw => by cases hw⟩
      · exact ⟨by decide, _, .inl ⟨by simp [threeLogs], rfl⟩, fun w hw => by cases hw⟩
  obtain ⟨⟨n, hends⟩, hexact⟩ := hfollow slowPages (fun _ => Int.one_nonneg) (.inl rfl)
  exact ⟨n, Prod.ext ((hexact n hends).trans hall) hends⟩

/-- The first page is the newest Log, and the cursor after it. -/
private theorem firstPage : query fewFunctions threeLogs none halfEnv laterLogs (slowPages 0) [] =
    .logs [logAt 4] (some (encodeCursor ⟨4000, 1⟩ (-1))) := by
  have hscan : threeLogs.scanLogs fewFunctions
      (scanOf Library.readsNothing (laterLogsQuery 2000) (slowPages 0) 1 none (-1)) =
        ⟨[logAt 4], some ⟨4000, 1⟩⟩ := by
    have hspan : threeLogs.span
        (scanOf Library.readsNothing (laterLogsQuery 2000) (slowPages 0) 1 none (-1)).range =
          some (3000, 5000) := rfl
    unfold Project.scanLogs
    rw [hspan]
    unfold Project.scanSpans
    rfl
  change pageFrom fewFunctions Library.readsNothing threeLogs (laterLogsQuery 2000) (slowPages 0) 1 none (-1) = _
  unfold pageFrom
  rw [hscan]
  rfl

/-- The second page is empty: its ago() starts later than the Log that was left. -/
private theorem secondPage :
    query fewFunctions threeLogs none halfEnv laterLogs (slowPages 1) (encodeCursor ⟨4000, 1⟩ (-1)) =
      .logs [] none := by
  have hdecode := @decodeCursor_encodeCursor ⟨4000, 1⟩ (-1) (by unfold inYears; decide) (by decide) (by decide)
  have hcursor : encodeCursor ⟨4000, 1⟩ (-1) ≠ [] := by
    intro heq
    rw [heq] at hdecode
    simp [decodeCursor, Digits.decode64, Digits.octets] at hdecode
  unfold query cursorOf
  rw [if_neg hcursor, hdecode]
  rfl

/-- The Log at the fifth microsecond is in the range and is on no page: the range is cut to the start of
its microsecond. The Log at the third is in the range and passes the head of a Query that reads the
time, and is on no page: the second page is run later. -/
theorem pages_loseLogs :
    ((logAt 5 ∈ threeLogs.table ∧ 0 ≤ (logAt 5).time ∧ (logAt 5).time < 5500 ∧
      compile none (halfEnv.runAt 2000) everyLog = .ok everyLogQuery) ∧
      ∃ n, follow fewFunctions threeLogs none halfEnv everyLog slowPages n [] =
        ([logAt 4, logAt 3], none)) ∧
    (logAt 3 ∈ threeLogs.table ∧ within (0, 5500) (logAt 3).micros ∧
      compile none (halfEnv.runAt 2000) laterLogs = .ok (laterLogsQuery 2000) ∧
      (laterLogsQuery 2000).passesHead fewFunctions Library.readsNothing (clickHouseColumns none) (logAt 3).row) ∧
      ∃ n, follow fewFunctions threeLogs none halfEnv laterLogs slowPages n [] = ([logAt 4], none) := by
  refine ⟨⟨⟨by simp [threeLogs], by decide, by decide, rfl⟩, ?_⟩,
    ⟨by simp [threeLogs], by decide, rfl, ?_⟩, 2, ?_⟩
  · obtain ⟨⟨n, hends⟩, hexact⟩ := @follow_rows halfEnv everyLog everyLogQuery fewFunctions threeLogs none
      slowPages (fun _ => Int.one_nonneg) (fun i => rfl) rfl
    exact ⟨n, Prod.ext ((hexact n hends).trans rfl) hends⟩
  · intro w hw
    cases hw
    unfold Sql.holds
    rfl
  · have hlast : follow fewFunctions threeLogs none halfEnv laterLogs (fun i => slowPages (i + 1)) 1
        (encodeCursor ⟨4000, 1⟩ (-1)) = ([], none) := follow_last secondPage
    rw [follow_next firstPage, hlast]
    rfl

end Compiled

end SolidTrace.LogPages
