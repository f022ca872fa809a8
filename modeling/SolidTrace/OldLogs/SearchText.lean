import SolidTrace.Lib.Joined
import SolidTrace.OldLogs.SameFields

/-!
# What search finds in a Log wherever it is stored

An old day's files and the logs table join a Log's string values in orders of their own, and the old day's
files with an empty text for each promoted key that the Log lacks. What holds no separator is found in both
or in neither; what holds one is not.
-/

namespace SolidTrace.OldLogs

open LogQuery

section Texts

/-- A text's characters, their case folded. -/
def folded (fold : Char → Char) (s : String) : List Char := s.toList.map fold

/-- Whether a pattern is found in a text, their case folded. -/
def Found (fold : Char → Char) (pattern text : String) : Prop := folded fold pattern <:+: folded fold text

/-- A string Attribute of the Log has a value such that. -/
def Log.HasString (log : Log) (P : String → Prop) : Prop :=
  ∃ key v, log.attributes.string.lookup key = some v ∧ P v

def nul : Char := '\x00'

variable {fold : Char → Char} {pattern : String}

/-- Texts joined and folded are folded and joined. -/
theorem folded_intercalate (fold : Char → Char) (texts : List String) :
    folded fold (separator.intercalate texts) = [fold nul].intercalate (texts.map (folded fold)) := by
  have hseparator : separator.toList = [nul] := rfl
  rw [folded, String.toList_intercalate, hseparator]
  induction texts with
  | nil => rfl
  | cons text rest ih =>
    cases rest with
    | nil => simp [folded]
    | cons next rest =>
      simp only [List.map_cons, List.intercalate_cons_cons, List.map_append, List.map_nil] at ih ⊢
      rw [ih]
      rfl

/-- What holds no separator is found in joined texts just when it is in one of them. -/
theorem found_intercalate_iff (hfold : ∀ c, fold c = fold nul → c = nul) (hne : pattern ≠ "")
    (hnul : nul ∉ pattern.toList) (texts : List String) :
    Found fold pattern (separator.intercalate texts) ↔ ∃ text ∈ texts, Found fold pattern text := by
  have hnotMem : fold nul ∉ folded fold pattern := by
    intro hmem
    obtain ⟨c, hc, heq⟩ := List.mem_map.1 hmem
    exact hnul (hfold c heq ▸ hc)
  have hpattern : folded fold pattern ≠ [] := by simpa [folded] using hne
  rw [Found, folded_intercalate, Joined.infix_intercalate_iff hnotMem hpattern]
  simp [Found]

/-- A value of a map's entries is one under some key. -/
theorem exists_entriesOf_iff {m : NamedMap String} {P : String → Prop} :
    (∃ text ∈ (entriesOf id m).map Prod.snd, P text) ↔ ∃ key v, m.lookup key = some v ∧ P v := by
  have hmem : ∀ v, v ∈ (entriesOf id m).map Prod.snd ↔ ∃ key, m.lookup key = some v := by
    intro v
    simp only [entriesOf, List.map_map, List.mem_map, Function.comp_apply, id]
    constructor
    · rintro ⟨⟨key, v⟩, hentry, rfl⟩
      exact ⟨key, AList.mem_lookup_iff.2 hentry⟩
    · rintro ⟨key, hkey⟩
      exact ⟨⟨key, v⟩, AList.mem_lookup_iff.1 hkey, rfl⟩
  constructor
  · rintro ⟨v, hv, hP⟩
    obtain ⟨key, hkey⟩ := (hmem v).1 hv
    exact ⟨key, v, hkey, hP⟩
  · rintro ⟨key, v, hkey, hP⟩
    exact ⟨v, (hmem v).2 ⟨key, hkey⟩, hP⟩

/-- The text that search reads of the logs table. -/
theorem found_logRow_iff (hfold : ∀ c, fold c = fold nul → c = nul) (hne : pattern ≠ "")
    (hnul : nul ∉ pattern.toList) (log : Log) :
    Found fold pattern (separator.intercalate (sortedValues log.attributes.string)) ↔
      log.HasString (Found fold pattern) := by
  rw [found_intercalate_iff hfold hne hnul, Log.HasString, ← exists_entriesOf_iff]
  have hperm : (sortedValues log.attributes.string).Perm
      ((entriesOf id log.attributes.string).map Prod.snd) := (List.mergeSort_perm _ _).map Prod.snd
  simp only [hperm.mem_iff]

variable {d : OldDay} {log : Log} {row : OldRow}

/-- The text of a promoted column, empty where it has none. -/
def promotedText (row : OldRow) (promoted : PromotedKey) : String :=
  ((row.promoted promoted.column).bind asString).getD ""

/-- The text that search reads of a row of a day's old files. -/
def OldDay.textOf (d : OldDay) (row : OldRow) : String :=
  separator.intercalate (separator.intercalate ((entriesOf id row.string).map Prod.snd) ::
    (d.promotedOf .string).map (promotedText row))

/-- A string value is in the map or in a promoted column, and nothing else is. -/
theorem exists_placed_iff (h : LiesIn d log row) {P : String → Prop} (hempty : ¬P "") :
    ((∃ key v, row.string.lookup key = some v ∧ P v) ∨ ∃ p ∈ d.promotedOf .string, P (promotedText row p)) ↔
      log.HasString P := by
  have hbind : ∀ o : Option String, (o.map AttributeValue.string).bind asString = o := by
    intro o
    cases o <;> rfl
  constructor
  · rintro (⟨key, v, hkey, hP⟩ | ⟨p, hp, hP⟩)
    · refine ⟨key, v, ?_, hP⟩
      by_cases hpromoted : ∃ p ∈ d.promotedOf .string, p.key = key
      · obtain ⟨p, hp, rfl⟩ := hpromoted
        cases hpartway : p.partway with
        | false =>
          rw [(h.string.whole p hp hpartway).2] at hkey
          cases hkey
        | true =>
          rcases h.string.partway p hp hpartway with ⟨-, hmap | hmap⟩ | ⟨-, hmap⟩
          · rw [hmap] at hkey
            cases hkey
          · rwa [hmap] at hkey
          · rwa [hmap] at hkey
      · rwa [h.string.others key fun p hp heq => hpromoted ⟨p, hp, heq⟩] at hkey
    · have hvalue : ∀ o : Option String, P (o.getD "") → ∃ v, o = some v ∧ P v := by
        intro o ho
        cases o with
        | none => exact absurd ho hempty
        | some v => exact ⟨v, rfl, ho⟩
      obtain ⟨v, hv, hPv⟩ := hvalue _ hP
      refine ⟨p.key, v, ?_, hPv⟩
      cases hpartway : p.partway with
      | false => rwa [(h.string.whole p hp hpartway).1, hbind] at hv
      | true =>
        rcases h.string.partway p hp hpartway with ⟨hcolumn, -⟩ | ⟨hcolumn, -⟩
        · rwa [hcolumn, hbind] at hv
        · rw [hcolumn] at hv
          cases hv
  · rintro ⟨key, v, hkey, hP⟩
    by_cases hpromoted : ∃ p ∈ d.promotedOf .string, p.key = key
    · obtain ⟨p, hp, rfl⟩ := hpromoted
      have htext : row.promoted p.column = (log.attributes.string.lookup p.key).map .string →
          P (promotedText row p) := by
        intro hcolumn
        rw [promotedText, hcolumn, hbind, hkey]
        exact hP
      cases hpartway : p.partway with
      | false => exact .inr ⟨p, hp, htext (h.string.whole p hp hpartway).1⟩
      | true =>
        rcases h.string.partway p hp hpartway with ⟨hcolumn, -⟩ | ⟨-, hmap⟩
        · exact .inr ⟨p, hp, htext hcolumn⟩
        · exact .inl ⟨p.key, v, hmap.trans hkey, hP⟩
    · exact .inl ⟨key, v, (h.string.others key fun p hp heq => hpromoted ⟨p, hp, heq⟩).trans hkey, hP⟩

/-- A text is found in an old file's search text when one of the Log's strings has it. -/
theorem found_oldRow_iff (h : LiesIn d log row) (hfold : ∀ c, fold c = fold nul → c = nul) (hne : pattern ≠ "")
    (hnul : nul ∉ pattern.toList) : Found fold pattern (d.textOf row) ↔ log.HasString (Found fold pattern) := by
  have hempty : ¬Found fold pattern "" := by simpa [Found, folded] using hne
  rw [← exists_placed_iff h hempty, OldDay.textOf, found_intercalate_iff hfold hne hnul, List.exists_mem_cons_iff,
    found_intercalate_iff hfold hne hnul, exists_entriesOf_iff]
  simp only [List.mem_map, exists_exists_and_eq_and]

end Texts

section Search

/-- A function of ClickHouse's gives where a pattern starts in a text, their case folded, from 1, or 0. NUL
has no case. -/
def FindsFolded (ch : ClickHouse) (fn : Fn) (fold : Char → Char) : Prop :=
  (∀ c, fold c = fold nul → c = nul) ∧ ∀ text pattern, ∃ n : ℕ,
    ch.apply fn [some (.string text), some (.string pattern)] = some (.number n) ∧
      (0 < n ↔ Found fold pattern text)

/-- ClickHouse's functions that search reads text with mean what they are documented to. -/
structure ReadsTexts (ch : ClickHouse) : Prop where
  values : ∀ entries, ∃ values, ch.apply .mapValues [some (.map entries)] = some values ∧
    ∀ sep, ch.apply .arrayStringConcat [some values, some (.string sep)] =
      some (.string (sep.intercalate (entries.map Prod.snd)))
  concat : ∀ sep texts, ch.apply .concatWithSeparator ((sep :: texts).map fun text => some (.string text)) =
    some (.string (sep.intercalate texts))
  ascii : ∃ fold, FindsFolded ch .positionCaseInsensitive fold
  utf8 : ∃ fold, FindsFolded ch .positionCaseInsensitiveUTF8 fold

variable {ch : ClickHouse} {d : OldDay} {log : Log} {row : OldRow} {r : Sql.Row}

/-- A promoted column has a value of its type. -/
theorem Places.promoted_typed {V : Type} {t : AttributeType} {value : V → AttributeValue}
    {values inMap : NamedMap V} (h : Places d row t value values inMap) {p : PromotedKey}
    (hp : p ∈ d.promotedOf t) : ∃ v : Option V, row.promoted p.column = v.map value := by
  cases hpartway : p.partway with
  | false => exact ⟨_, (h.whole p hp hpartway).1⟩
  | true =>
    rcases h.partway p hp hpartway with ⟨hcolumn, -⟩ | ⟨hcolumn, -⟩
    · exact ⟨_, hcolumn⟩
    · exact ⟨none, hcolumn⟩

/-- A promoted text reads as the Log's string, and as empty without one. -/
theorem eval_promotedText (h : LiesIn d log row) {p : PromotedKey} (hp : p ∈ d.promotedOf .string) :
    (ifNullEmpty (.column none p.column)).eval ch [] row.columns = some (.string (promotedText row p)) := by
  obtain ⟨v, hv⟩ := h.string.promoted_typed hp
  have hcolumn : (Sql.column none p.column).eval ch [] row.columns = v.map .string := by
    change row.columns p.column = _
    rw [columns_promoted (d.apart p (List.mem_filter.1 hp).1), hv, Option.map_map]
    rfl
  rw [eval_ifNullEmpty hcolumn, promotedText, hv]
  cases v <;> rfl

/-- The texts to search are read one by one. -/
theorem evalAll_texts {xs : List PromotedKey} {x : PromotedKey → Sql} {text : PromotedKey → String}
    (h : ∀ p ∈ xs, (x p).eval ch [] r = some (.string (text p))) :
    Sql.evalAll ch [] r (xs.map x) = (xs.map text).map fun text => some (.string text) := by
  induction xs with
  | nil => rfl
  | cons p rest ih =>
    obtain ⟨hp, hrest⟩ := List.forall_mem_cons.1 h
    rw [List.map_cons, Sql.evalAll, hp, ih hrest, List.map_cons, List.map_cons]

/-- The text that search reads of a day's old files. -/
theorem eval_searchText (hch : ReadsTexts ch) (h : LiesIn d log row) :
    d.searchText.eval ch [] row.columns = some (.string (d.textOf row)) := by
  obtain ⟨values, hvalues, hconcat⟩ := hch.values (entriesOf id row.string)
  have hmap : row.columns "attrs_string" = some (.map (entriesOf id row.string)) := rfl
  have hjoined : (Sql.fn .arrayStringConcat [.fn .mapValues [.column none "attrs_string"],
      .text separator]).eval ch [] row.columns =
        some (.string (separator.intercalate ((entriesOf id row.string).map Prod.snd))) := by
    simp [Sql.evalAll, Sql.text, hmap, Sql.eval, Fn.eval, ordinary, Fn.readsNull, hvalues, hconcat]
  have hpromoted := evalAll_texts fun p hp => @eval_promotedText ch d log row h p hp
  have hargs : Sql.evalAll ch [] row.columns (.text separator ::
      .fn .arrayStringConcat [.fn .mapValues [.column none "attrs_string"], .text separator] ::
        (d.promotedOf .string).map fun promoted => ifNullEmpty (.column none promoted.column)) =
      (separator :: separator.intercalate ((entriesOf id row.string).map Prod.snd) ::
        (d.promotedOf .string).map (promotedText row)).map fun text => some (.string text) := by
    rw [Sql.evalAll, Sql.evalAll, hjoined, hpromoted]
    rfl
  have hsome : ∀ texts : List String, (texts.map fun text => some (Value.string text)).any Option.isNone = false := by
    simp
  change ordinary ch .concatWithSeparator (Sql.evalAll ch [] row.columns _) = _
  rw [hargs, ordinary, hsome, Bool.and_false, if_neg Bool.false_ne_true, hch.concat]
  rfl

/-- A folded text is found where the folds of both agree. -/
theorem holds_folded {fn : Fn} {fold : Char → Char} (hfn : FindsFolded ch fn fold)
    (heval : ∀ args, fn.eval ch args = ordinary ch fn args) (hnull : fn.readsNull = false) {x : Sql}
    {pattern text : String} (hx : x.eval ch [] r = some (.string text)) :
    (Sql.fn .greater [.fn fn [x, .text pattern], .number 0]).holds ch [] r ↔ Found fold pattern text := by
  obtain ⟨n, hn, hfound⟩ := hfn.2 text pattern
  have hposition : (Sql.fn fn [x, .text pattern]).eval ch [] r = some (.number n) := by
    rw [Sql.eval, heval]
    simp [Sql.evalAll, Sql.text, Sql.eval, hx, ordinary, hnull, hn]
  have hpos : Value.number (n : ℚ) > .number 0 ↔ 0 < n := by
    rw [gt_iff_lt, Value.number_lt_number, Nat.cast_pos]
  have hgreater : ∀ y : Sql, (Sql.fn .greater [y, .number 0]).eval ch [] r =
      Fn.eval.order (· > ·) (y.eval ch [] r) (some (.number 0)) := fun y => rfl
  rw [← hfound, ← hpos, Sql.holds, hgreater, hposition]
  simp [Fn.eval.order, truth]

/-- A search for a pattern finds it in a text, in some folding of case. -/
theorem exists_holds_position (hch : ReadsTexts ch) (pattern : String) :
    ∃ fold : Char → Char, (∀ c, fold c = fold nul → c = nul) ∧
      ∀ (x : Sql) (r : Sql.Row) (text : String), x.eval ch [] r = some (.string text) →
        ((Sql.fn .greater [caseInsensitivePosition x pattern, .number 0]).holds ch [] r ↔
          Found fold pattern text) := by
  obtain ⟨ascii, hascii⟩ := hch.ascii
  obtain ⟨utf8, hutf8⟩ := hch.utf8
  unfold caseInsensitivePosition
  split
  · exact ⟨utf8, hutf8.1, fun x r text hx => holds_folded hutf8 (fun _ => rfl) rfl hx⟩
  · exact ⟨ascii, hascii.1, fun x r text hx => holds_folded hascii (fun _ => rfl) rfl hx⟩

/-- A row passes a search when a term is found in its message or in the text that search reads besides. -/
theorem holds_writeSearch_iff {cols : Columns} {terms : List String} :
    (writeSearch cols terms).holds ch [] r ↔ ∃ term ∈ terms,
      (Sql.fn .greater [caseInsensitivePosition (cols.builtIn "message") term, .number 0]).holds ch [] r ∨
        (Sql.fn .greater [caseInsensitivePosition cols.searchText term, .number 0]).holds ch [] r := by
  simp only [writeSearch, Sql.holds_disjunction, List.mem_flatMap, List.mem_cons, List.not_mem_nil, or_false]
  constructor
  · rintro ⟨x, ⟨term, hterm, rfl | rfl⟩, hholds⟩
    · exact ⟨term, hterm, .inl hholds⟩
    · exact ⟨term, hterm, .inr hholds⟩
  · rintro ⟨term, hterm, hholds | hholds⟩
    · exact ⟨_, ⟨term, hterm, .inl rfl⟩, hholds⟩
    · exact ⟨_, ⟨term, hterm, .inr rfl⟩, hholds⟩

/-- What a search for a term reads of a Log in either place: its message, and a text of its own. -/
theorem exists_holds_term (hch : ReadsTexts ch) (h : LiesIn d log row) (projectID batch : ℕ) (term : String) :
    ∃ fold : Char → Char, (∀ c, fold c = fold nul → c = nul) ∧
      ((writeSearch d.columns [term]).holds ch [] row.columns ↔
        Found fold term log.message ∨ Found fold term (d.textOf row)) ∧
      ((writeSearch (clickHouseColumns none) [term]).holds ch [] (logRow projectID batch log) ↔
        Found fold term log.message ∨
          Found fold term (separator.intercalate (sortedValues log.attributes.string))) := by
  obtain ⟨fold, hfold, hfinds⟩ := exists_holds_position hch term
  have hmessage : (d.columns.builtIn "message").eval ch [] row.columns = some (.string log.message) :=
    builtIn_oldRow h projectID batch rfl
  have htext : d.columns.searchText.eval ch [] row.columns = some (.string (d.textOf row)) :=
    eval_searchText hch h
  simp only [holds_writeSearch_iff, List.mem_singleton, exists_eq_left]
  refine ⟨fold, hfold, ?_, ?_⟩
  · rw [hfinds _ _ _ hmessage, hfinds _ _ _ htext]
  · rw [hfinds _ _ log.message rfl, hfinds _ _ (separator.intercalate (sortedValues log.attributes.string)) rfl]

/-- A search for terms that hold no NUL finds a Log in both places or in neither. -/
theorem search_oldRow (hch : ReadsTexts ch) (h : LiesIn d log row) (projectID batch : ℕ) {terms : List String}
    (hnul : ∀ term ∈ terms, nul ∉ term.toList) :
    (writeSearch d.columns terms).holds ch [] row.columns ↔
      (writeSearch (clickHouseColumns none) terms).holds ch [] (logRow projectID batch log) := by
  have hsplit : ∀ (cols : Columns) (r : Sql.Row), (writeSearch cols terms).holds ch [] r ↔
      ∃ term ∈ terms, (writeSearch cols [term]).holds ch [] r := by
    intro cols r
    simp only [holds_writeSearch_iff, List.mem_singleton, exists_eq_left]
  rw [hsplit, hsplit]
  refine exists_congr fun term => and_congr_right fun hterm => ?_
  obtain ⟨fold, hfold, hold, hnew⟩ := exists_holds_term hch h projectID batch term
  rw [hold, hnew]
  by_cases hempty : term = ""
  · subst hempty
    have hall : ∀ text, Found fold "" text := fun text => List.nil_infix
    simp only [hall, true_or]
  · rw [found_oldRow_iff h hfold hempty (hnul term hterm), found_logRow_iff hfold hempty (hnul term hterm)]

end Search

end SolidTrace.OldLogs
