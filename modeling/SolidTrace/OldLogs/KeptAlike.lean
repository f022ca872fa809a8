import SolidTrace.LogQuery.Writable
import SolidTrace.OldLogs.SearchText

/-!
# Logs kept alike wherever they are stored

The head of a Query, written for a day of old Log files, keeps a Log that lies in them just when the head
written for the logs table keeps its row there, unless a term that it searches for holds a NUL. A search for
such a term finds a Log in one place and not in the other.
-/

namespace SolidTrace.OldLogs

open LogQuery

section Heads

/-- The terms that a stage of the head searches for. -/
def searchTerms : Stage → List String
  | .searchStage terms => terms
  | _ => []

/-- A Query's head keeps Logs of a day's old files just when it keeps their rows in the logs table. -/
def KeepsAlike (ch : ClickHouse) (lib : Library) (q : Query) : Prop :=
  ∀ (d : OldDay) (log : Log) (row : OldRow), LiesIn d log row → ∀ (projectID batch : ℕ) (conditions : List Sql),
    meets ch (oldWhere conditions (q.filter lib d.columns)) row.columns =
      (meets ch conditions row.columns &&
        (q.filter lib (clickHouseColumns none)).keeps ch (logRow projectID batch log))

variable {ch : ClickHouse} {lib : Library} {d : OldDay} {log : Log} {row : OldRow} {q : Query}

/-- A condition and a filter keep what each of them keeps. -/
theorem meets_oldWhere (conditions : List Sql) (filter : Filter) (r : Sql.Row) :
    meets ch (oldWhere conditions filter) r = (meets ch conditions r && filter.keeps ch r) := by
  obtain ⟨rest, message⟩ := filter
  cases rest <;> cases message <;> simp [oldWhere, meets, Filter.keeps]

/-- ClickHouse's functions that Logs are read and filtered with mean what they are documented to. -/
structure Documented (ch : ClickHouse) : Prop where
  tests : ch.TestsAreBools
  maps : ReadsMaps ch
  texts : ReadsTexts ch

/-- A head that searches for no term that holds a NUL keeps a Log in both places or in neither. -/
theorem passesHead_oldRow (hch : Documented ch) (h : LiesIn d log row)
    (hwhere : ∀ p, .whereStage p ∈ q.head → IsTest lib .logScope none p)
    (hnul : ∀ s ∈ q.head, ∀ term ∈ searchTerms s, nul ∉ term.toList) (projectID batch : ℕ) :
    q.passesHead ch lib d.columns row.columns ↔
      q.passesHead ch lib (clickHouseColumns none) (logRow projectID batch log) := by
  rw [Query.passesHead_iff, Query.passesHead_iff]
  refine forall₂_congr fun s hs => ?_
  cases s with
  | whereStage p =>
    obtain ⟨hp, htype⟩ := hwhere p hs
    simpa [headCondition] using where_oldRow hch.maps hch.tests h projectID batch hp htype
  | searchStage terms =>
    have hterms : ∀ term ∈ terms, nul ∉ term.toList := hnul _ hs
    simpa [headCondition] using search_oldRow hch.texts h projectID batch hterms
  | _ => simp [headCondition]

/-- Without NUL in the search, and with tests for conditions, both readers keep alike. -/
theorem keepsAlike_of_noNul (hch : Documented ch)
    (hwhere : ∀ p, .whereStage p ∈ q.head → IsTest lib .logScope none p)
    (hnul : ∀ s ∈ q.head, ∀ term ∈ searchTerms s, nul ∉ term.toList) : KeepsAlike ch lib q := by
  intro d log row h projectID batch conditions
  rw [meets_oldWhere]
  congr 1
  rw [Bool.eq_iff_iff, Query.filter_keeps_iff, Query.filter_keeps_iff]
  exact passesHead_oldRow hch h hwhere hnul projectID batch

/-- A head of one search keeps the rows that the search finds. -/
theorem keeps_search_iff {term : String} (hq : q.head = [.searchStage [term]]) {cols : Columns} {r : Sql.Row} :
    (q.filter lib cols).keeps ch r = true ↔ (writeSearch cols [term]).holds ch [] r := by
  rw [Query.filter_keeps_iff, Query.passesHead_iff, hq]
  simp [headCondition]

end Heads

section Split

/-- A text under `a` and one under `b`, each if there is one. -/
def splitMap (a b : Option String) : NamedMap String where
  entries := (a.map fun s => ⟨"a", s⟩).toList ++ (b.map fun s => ⟨"b", s⟩).toList
  nodupKeys := by cases a <;> cases b <;> simp

/-- A split map has its two keys and no others. -/
theorem lookup_splitMap (a b : Option String) (key : String) :
    (splitMap a b).lookup key = if key = "a" then a else if key = "b" then b else none := by
  by_cases ha : key = "a"
  · subst ha
    cases a <;> cases b <;> simp [splitMap, AList.lookup]
  by_cases hb : key = "b"
  · subst hb
    cases a <;> cases b <;> simp [splitMap, AList.lookup]
  · cases a <;> cases b <;> simp [splitMap, AList.lookup, ha, hb]

/-- A day on which `c` and then `b` are promoted. -/
def splitDay : OldDay where
  set := [⟨.string, "c", "c_column", false⟩, ⟨.string, "b", "b_column", false⟩]
  apart := by decide

/-- A Log of two string Attributes, each if there is one. -/
def splitLog (a b : Option String) : Log where
  id := 0
  time := 0
  level := ""
  message := ""
  service := ""
  environment := ""
  traceID := ""
  spanID := ""
  attributes := ⟨splitMap a b, ∅, ∅, ∅⟩
  apart name := by simp

/-- The row of the Log in an old file of the day: `b` is in its column. -/
def splitRow (a b : Option String) : OldRow where
  id := 0
  time := 0
  level := none
  message := none
  service := none
  environment := none
  traceID := none
  spanID := none
  batch := none
  string := splitMap a none
  number := ∅
  bool := ∅
  json := ∅
  promoted column := if column = "b_column" then b.map .string else none

/-- No value lies in a row of a day on which none of its type is promoted. -/
theorem places_empty {V : Type} {t : AttributeType} {value : V → AttributeValue} {row : OldRow}
    (h : splitDay.promotedOf t = []) : Places splitDay row t value ∅ ∅ where
  whole p hp := absurd hp (by simp [h])
  partway p hp := absurd hp (by simp [h])
  others _ _ := rfl

/-- The split Log lies in the split row. -/
theorem liesIn_split (a b : Option String) : LiesIn splitDay (splitLog a b) (splitRow a b) where
  id := rfl
  time := rfl
  level := rfl
  message := rfl
  service := rfl
  environment := rfl
  traceID := rfl
  spanID := rfl
  string := by
    have hpromoted : splitDay.promotedOf .string = splitDay.set := rfl
    have hvalues : ∀ key, (splitLog a b).attributes.string.lookup key = (splitMap a b).lookup key := fun _ => rfl
    have hinMap : ∀ key, (splitRow a b).string.lookup key = (splitMap a none).lookup key := fun _ => rfl
    refine ⟨?_, ?_, ?_⟩
    · intro p hp _
      rw [hpromoted] at hp
      rw [hvalues, hinMap, lookup_splitMap, lookup_splitMap]
      simp only [splitDay, List.mem_cons, List.not_mem_nil, or_false] at hp
      rcases hp with rfl | rfl <;> simp [splitRow]
    · intro p hp hpartway
      rw [hpromoted] at hp
      simp only [splitDay, List.mem_cons, List.not_mem_nil, or_false] at hp
      rcases hp with rfl | rfl <;> cases hpartway
    · intro key hkey
      have hne : key ≠ "b" := by
        have hb := hkey ⟨.string, "b", "b_column", false⟩ (by rw [hpromoted]; simp [splitDay])
        exact hb.symm
      rw [hvalues, hinMap, lookup_splitMap, lookup_splitMap]
      simp [hne]
  number := places_empty (by decide)
  bool := places_empty (by decide)
  json _ := rfl

/-- The text that search reads of the Log's row in the old file. -/
theorem folded_textOf_split (fold : Char → Char) (a b : Option String) :
    folded fold (splitDay.textOf (splitRow a b)) =
      folded fold (a.getD "") ++ fold nul :: fold nul :: folded fold (b.getD "") := by
  have hpromoted : splitDay.promotedOf .string = splitDay.set := rfl
  have hb : ((b.map AttributeValue.string).bind asString).getD "" = b.getD "" := by
    cases b <;> rfl
  have hmap : separator.intercalate ((entriesOf id (splitMap a none)).map Prod.snd) = a.getD "" := by
    cases a with
    | none => rfl
    | some s => simp [splitMap, entriesOf]
  have htexts : splitDay.set.map (promotedText (splitRow a b)) = ["", b.getD ""] := by
    simp [splitDay, promotedText, splitRow, hb]
  have hstring : (splitRow a b).string = splitMap a none := rfl
  rw [OldDay.textOf, hpromoted, htexts, hstring, hmap, folded_intercalate]
  simp [folded]

/-- The text that search reads of the Log's row in the logs table. -/
theorem sortedValues_split (a b : Option String) : sortedValues (splitMap a b) = a.toList ++ b.toList := by
  have hsorted : (entriesOf id (splitMap a b)).Pairwise fun x y => decide (x.1 ≤ y.1) = true := by
    cases a <;> cases b <;> simp [splitMap, entriesOf]
  rw [sortedValues, List.mergeSort_of_pairwise hsorted]
  cases a <;> cases b <;> simp [splitMap, entriesOf]

variable {ch : ClickHouse} {lib : Library} {q : Query} {term : String}

/-- A search that keeps Logs alike finds its term in both texts of a Log of two Attributes, or in neither. -/
theorem KeepsAlike.found_split (halike : KeepsAlike ch lib q) (hch : ReadsTexts ch)
    (hq : q.head = [.searchStage [term]]) (hne : term ≠ "") (a b : Option String) :
    ∃ fold : Char → Char, (∀ c, fold c = fold nul → c = nul) ∧
      (folded fold term <:+: folded fold (a.getD "") ++ fold nul :: fold nul :: folded fold (b.getD "") ↔
        Found fold term (separator.intercalate (a.toList ++ b.toList))) := by
  have h := liesIn_split a b
  obtain ⟨fold, hfold, hold, hnew⟩ := exists_holds_term hch h 1 1 term
  have hmessage : ¬Found fold term (splitLog a b).message := by
    simpa [Found, folded, splitLog] using hne
  have hsorted : sortedValues (splitLog a b).attributes.string = a.toList ++ b.toList := sortedValues_split a b
  have hkeeps := halike splitDay _ _ h 1 1 []
  rw [meets_oldWhere, Bool.eq_iff_iff] at hkeeps
  simp only [meets, List.all_nil, Bool.true_and, keeps_search_iff hq, hold, hnew, hmessage, false_or, hsorted]
    at hkeeps
  rw [Found, folded_textOf_split] at hkeeps
  exact ⟨fold, hfold, hkeeps⟩

/-- A search for a term that holds a NUL does not keep Logs alike. -/
theorem KeepsAlike.nul_notMem (halike : KeepsAlike ch lib q) (hch : ReadsTexts ch)
    (hq : q.head = [.searchStage [term]]) : nul ∉ term.toList := by
  intro hmem
  have hne : term ≠ "" := by
    rintro rfl
    cases hmem
  obtain ⟨u, w, hterm, hu⟩ := List.eq_append_cons_of_mem hmem
  have hfolded : ∀ fold : Char → Char, folded fold term = u.map fold ++ fold nul :: w.map fold := by
    intro fold
    rw [folded, hterm, List.map_append, List.map_cons]
  have hlength : term.toList.length = u.length + w.length + 1 := by
    rw [hterm, List.length_append, List.length_cons, Nat.add_assoc]
  have hlist : ∀ (fold : Char → Char) (l : List Char), folded fold (String.ofList l) = l.map fold := by
    intro fold l
    rw [folded, String.toList_ofList]
  by_cases hblank : ∀ c ∈ w, c = nul
  · -- All that follows is NULs: the text before the last is found with one more NUL in the old file only.
    obtain ⟨fold, -, hiff⟩ := halike.found_split hch hq hne (some (String.ofList (u ++ w))) none
    have hshift : fold nul :: w.map fold = w.map fold ++ [fold nul] := by
      rw [List.eq_replicate_of_mem hblank, List.map_replicate, ← List.replicate_succ, List.replicate_succ']
    have hold : folded fold term <:+: folded fold (String.ofList (u ++ w)) ++ [fold nul, fold nul] := by
      rw [hfolded, hlist, hshift, List.map_append]
      exact ⟨[], [fold nul], by simp⟩
    have hnew : term.toList.length ≤ u.length + w.length := by
      simpa [folded] using List.IsInfix.length_le (hiff.1 (by simpa [folded] using hold))
    omega
  · push Not at hblank
    by_cases hstart : u = []
    · -- The term is a NUL before a text: it is found after a promoted key that the Log lacks.
      subst hstart
      obtain ⟨fold, -, hiff⟩ := halike.found_split hch hq hne none (some (String.ofList w))
      have hold : folded fold term <:+: fold nul :: fold nul :: folded fold (String.ofList w) := by
        rw [hfolded, hlist]
        exact ⟨[fold nul], [], by simp⟩
      have hnew : term.toList.length ≤ w.length := by
        simpa [folded] using List.IsInfix.length_le (hiff.1 (by simpa [folded] using hold))
      rw [List.length_nil] at hlength
      omega
    · -- The term is two texts joined: in the old file the empty text of a promoted key is between them.
      obtain ⟨fold, hfold, hiff⟩ :=
        halike.found_split hch hq hne (some (String.ofList u)) (some (String.ofList w))
      have hnew : Found fold term (separator.intercalate [String.ofList u, String.ofList w]) := by
        rw [Found, folded_intercalate, hfolded]
        simp [hlist]
      have hold := hiff.2 hnew
      rw [hfolded, Option.getD_some, Option.getD_some, hlist, hlist] at hold
      refine Joined.not_infix_doubled ?_ (by simpa using hstart) ?_ hold
      · intro hfound
        obtain ⟨c, hc, heq⟩ := List.mem_map.1 hfound
        exact hu (hfold c heq ▸ hc)
      · obtain ⟨c, hc, hcne⟩ := hblank
        exact ⟨fold c, List.mem_map_of_mem hc, fun heq => hcne (hfold c heq)⟩

end Split

section Reads

/-- The tree of `search "term"`. -/
def searchTree (term : String) : Syntax.Query := ⟨none, [.searchTextStage .null .null ⟨.null, .string, term⟩]⟩

/-- The Query that `search "term"` compiles to. -/
def searchQuery (env : Env) (term : String) : Query where
  head := [.searchStage [term]]
  tail := []
  fromTime := (narrow [.searchStage [term]] (env.bounds.fromTime, env.bounds.toTime)).1
  toTime := (narrow [.searchStage [term]] (env.bounds.fromTime, env.bounds.toTime)).2
  parameters := []
  table := false
  take := none
  reads := []
  output := []
  shape := ⟨fun _ => none, false⟩

/-- A search compiles to the stage of its term. -/
theorem compileQuery_searchTree (env : Env) (term : String) :
    compileQuery env (searchTree term) = .ok (searchQuery env term) := rfl

/-- Where a text that holds no NUL is in what search reads of a day's old files. -/
theorem infix_textOf_iff {d : OldDay} {log : Log} {row : OldRow} (h : LiesIn d log row) {part : String}
    (hne : part ≠ "") (hnul : nul ∉ part.toList) :
    part.toList <:+: (d.textOf row).toList ↔ log.HasString fun v => part.toList <:+: v.toList := by
  have hfound : Found id part = fun text => part.toList <:+: text.toList := by
    funext text
    rw [Found, folded, folded, List.map_id, List.map_id]
  have hiff := @found_oldRow_iff id part d log row h (fun c hc => hc) hne hnul
  rwa [hfound] at hiff

variable {ch : ClickHouse}

/-- A Log's Fields are read alike wherever it is stored, and so is the text that search reads, in what holds
no NUL. The heads that search for some terms only keep Logs alike just when none of the terms holds a NUL,
and of a head that searches for one term this is so of the head itself. -/
theorem reads_alike (hch : Documented ch) :
    (∀ (d : OldDay) (log : Log) (row : OldRow), LiesIn d log row →
      (scanOldLog (d.logColumns row)).Same log.toLogData ∧
      (∀ t key, (d.attributeOf t key).eval ch [] row.columns = log.attributes.valueOf t key) ∧
      ∃ text, d.searchText.eval ch [] row.columns = some (.string text) ∧
        ∀ part : String, part ≠ "" → nul ∉ part.toList →
          (part.toList <:+: text.toList ↔ log.HasString fun v => part.toList <:+: v.toList)) ∧
    (∀ (env : Env) (terms : List String),
      (∀ tree q, compileQuery env tree = .ok q → (∀ s ∈ q.head, searchTerms s ⊆ terms) →
        KeepsAlike ch env.lib q) ↔ ∀ term ∈ terms, nul ∉ term.toList) ∧
    ∀ (lib : Library) (q : Query) (term : String), q.head = [.searchStage [term]] →
      (KeepsAlike ch lib q ↔ nul ∉ term.toList) := by
  have hone : ∀ (lib : Library) (q : Query) (term : String), q.head = [.searchStage [term]] →
      (KeepsAlike ch lib q ↔ nul ∉ term.toList) := by
    intro lib q term hq
    constructor
    · exact fun halike => halike.nul_notMem hch.texts hq
    · intro hnul
      refine keepsAlike_of_noNul hch ?_ ?_
      · simp [hq]
      · simpa [hq, searchTerms] using hnul
  refine ⟨?_, ?_, hone⟩
  · intro d log row h
    refine ⟨scanOldLog_same h, fun t key => attributeOf_oldRow hch.maps h t key, d.textOf row,
      eval_searchText hch.texts h, ?_⟩
    exact fun part hne hnul => infix_textOf_iff h hne hnul
  · intro env terms
    constructor
    · intro halike term hterm
      have hsubset : ∀ s ∈ (searchQuery env term).head, searchTerms s ⊆ terms := by
        simpa [searchQuery, searchTerms] using hterm
      exact (hone env.lib (searchQuery env term) term rfl).1
        (halike _ _ (compileQuery_searchTree env term) hsubset)
    · intro hnul tree q hq hsubset
      have hchecked := compileQuery_checked hq
      refine keepsAlike_of_noNul hch (fun p hp => (hchecked.head _ hp).2) ?_
      exact fun s hs term hterm => hnul term (hsubset s hs hterm)

end Reads

section Samples

/-- A text that is not NULL. -/
private def asText : Option Value → Option String
  | some (.string text) => some text
  | _ => none

/-- ClickHouse's functions that Logs are read with, on text of ASCII. An array of texts is a map of them. -/
private def readsLogs : ClickHouse where
  apply
    | .mapContains, [some (.attributes entries), some (.string key)] => some (.bool (entries.lookup key).isSome)
    | .mapElement, [some (.attributes entries), some (.string key)] => (entries.lookup key).map attributeValue
    | .mapValues, [some (.map entries)] => some (.map entries)
    | .arrayStringConcat, [some (.map entries), some (.string sep)] =>
      some (.string (sep.intercalate (entries.map Prod.snd)))
    | .concatWithSeparator, some (.string sep) :: texts =>
      some (.string (sep.intercalate (texts.filterMap asText)))
    | .positionCaseInsensitive, [some (.string text), some (.string pattern)] =>
      some (.number (positionIn (folded Char.toLower text) (folded Char.toLower pattern)))
    | .positionCaseInsensitiveUTF8, [some (.string text), some (.string pattern)] =>
      some (.number (positionIn (folded Char.toLower text) (folded Char.toLower pattern)))
    | _, _ => none
  aggregate _ _ := none

/-- Only NUL is NUL in lower case. -/
private theorem toLower_eq_nul {c : Char} (h : c.toLower = Char.toLower nul) : c = nul := by
  have hnul : Char.toLower nul = nul := by decide
  rw [hnul] at h
  unfold Char.toLower at h
  split at h
  next hupper =>
    have hval := congrArg (fun c => c.val.toNat) h
    simp only [nul, UInt32.toNat_add] at hval
    have hlow := UInt32.le_iff_toNat_le.1 hupper.1
    have hhigh := UInt32.le_iff_toNat_le.1 hupper.2
    simp at hval hlow hhigh
    omega
  next => exact h

/-- The sample database is as documented. -/
private theorem readsLogs_documented : Documented readsLogs where
  tests _ := ⟨rfl, rfl⟩
  maps := ⟨fun _ _ => rfl, fun _ _ => rfl⟩
  texts :=
    { values := fun entries => ⟨.map entries, rfl, fun _ => rfl⟩
      concat := fun sep texts => by
        have htexts : (texts.map fun text => some (Value.string text)).filterMap asText = texts := by
          rw [List.filterMap_map]
          exact List.filterMap_some
        exact congrArg (fun texts => some (Value.string (sep.intercalate texts))) htexts
      ascii := ⟨Char.toLower, fun _ => toLower_eq_nul, fun _ _ => ⟨_, rfl, positionIn_pos_iff⟩⟩
      utf8 := ⟨Char.toLower, fun _ => toLower_eq_nul, fun _ _ => ⟨_, rfl, positionIn_pos_iff⟩⟩ }

/-- A search for error reads alike. -/
theorem reads_alike_error : KeepsAlike readsLogs Sample.env.lib (searchQuery Sample.env "error") :=
  ((reads_alike readsLogs_documented).2.2 Sample.env.lib (searchQuery Sample.env "error") "error" rfl).2
    (by decide)

/-- A Log whose one string is `x`, on a day on which keys that it lacks are promoted. A search for `x` and a
NUL finds it in the old file, and not in the logs table. -/
theorem not_reads_alike_nul :
    Documented readsLogs ∧
    compileQuery Sample.env (searchTree "x\x00") = .ok (searchQuery Sample.env "x\x00") ∧
    LiesIn splitDay (splitLog (some "x") none) (splitRow (some "x") none) ∧
    meets readsLogs (oldWhere [] ((searchQuery Sample.env "x\x00").filter Sample.env.lib splitDay.columns))
      (splitRow (some "x") none).columns = true ∧
    ((searchQuery Sample.env "x\x00").filter Sample.env.lib (clickHouseColumns none)).keeps readsLogs
      (logRow 1 1 (splitLog (some "x") none)) = false := by
  have h := liesIn_split (some "x") none
  have hq : (searchQuery Sample.env "x\x00").head = [.searchStage ["x\x00"]] := rfl
  obtain ⟨fold, -, hold, hnew⟩ := exists_holds_term readsLogs_documented.texts h 1 1 "x\x00"
  have hterm : folded fold "x\x00" = [fold 'x', fold nul] := rfl
  refine ⟨readsLogs_documented, rfl, h, ?_, ?_⟩
  · rw [meets_oldWhere, meets, List.all_nil, Bool.true_and, keeps_search_iff hq, hold]
    refine .inr ?_
    rw [Found, folded_textOf_split, hterm]
    exact ⟨[], [fold nul], rfl⟩
  · rw [Bool.eq_false_iff, ne_eq, keeps_search_iff hq, hnew]
    rintro (hfound | hfound)
    · have hlength := List.IsInfix.length_le hfound
      rw [hterm] at hlength
      exact absurd hlength (by simp [folded, splitLog])
    · have hsorted : sortedValues (splitLog (some "x") none).attributes.string = ["x"] := sortedValues_split _ _
      have hlength := List.IsInfix.length_le hfound
      rw [hterm, hsorted, folded_intercalate] at hlength
      exact absurd hlength (by simp [folded])

end Samples

end SolidTrace.OldLogs
