import SolidTrace.LogQuery.MessageText
import SolidTrace.LogQuery.Writable

/-!
# Copies of message in place of message

A stage may be added that copies message to a column, and the column be used in place of message in the
stages after it, which then name the columns they make by the column. The Query matches text just when
it did.
-/

namespace SolidTrace.LogQuery

section InPlace

/-- An expression reads copies of message in place of one another, and otherwise what the other does,
where the columns that hold the same are named as a relation says. -/
inductive InPlace (before before' : List Stage) (same : String → String → Prop) : Expr → Expr → Prop
  | copy {x x' : Expr} (hx : CopyOfMessage before x) (hx' : CopyOfMessage before' x') :
      InPlace before before' same x x'
  | column {name name' : String} {t : ValueType} {message message' : Bool} (hname : same name name') :
      InPlace before before' same (.columnRef name t message) (.columnRef name' t message')
  | parts {x : Expr} {parts : List Expr} (hcolumn : x.isColumn = false)
      (hlength : x.parts.length = parts.length)
      (hparts : ∀ pair ∈ x.parts.zip parts, InPlace before before' same pair.1 pair.2) :
      InPlace before before' same x (x.withParts parts)

/-- Columns have values alike, whatever they are named. -/
def ValuesAlike (alike : Expr → Expr → Prop) : List NamedValue → List NamedValue → Prop :=
  List.Forall₂ fun v v' => alike v.x v'.x

def SortKeyAlike (alike : Expr → Expr → Prop) (key key' : SortKey) : Prop :=
  alike key.x key'.x ∧ key'.asc = key.asc ∧ key'.nullsFirst = key.nullsFirst

/-- Stages are alike but for their expressions. -/
def Stage.Alike (alike : Expr → Expr → Prop) : Stage → Stage → Prop
  | .whereStage p, .whereStage p' => alike p p'
  | .searchStage terms, .searchStage terms' => terms' = terms
  | .projectStage columns, .projectStage columns' => ValuesAlike alike columns columns'
  | .extendStage columns, .extendStage columns' => ValuesAlike alike columns columns'
  | .summarizeStage columnsBy aggregates, .summarizeStage columnsBy' aggregates' =>
    ValuesAlike alike columnsBy columnsBy' ∧ ValuesAlike alike aggregates aggregates'
  | .sortStage keys, .sortStage keys' => List.Forall₂ (SortKeyAlike alike) keys keys'
  | .takeStage n, .takeStage n' => n' = n
  | .topStage n key, .topStage n' key' => n' = n ∧ SortKeyAlike alike key key'
  | .countStage, .countStage => True
  | .distinctStage columns, .distinctStage columns' => ValuesAlike alike columns columns'
  | _, _ => False

/-- Which columns hold the same after two stages alike: those made alike, and those both leave. -/
def sameAfter (same : String → String → Prop) (s s' : Stage) (name name' : String) : Prop :=
  (∃ pair ∈ s.columns.zip s'.columns, pair.1.name = name ∧ pair.2.name = name') ∨
    (made s name = .kept ∧ made s' name' = .kept ∧ same name name')

/-- The stages of two Queries, the last of them first, the second of which may copy message to columns
and use them in place of message. -/
inductive CopiesAdded : List Stage → List Stage → (String → String → Prop) → Prop
  | start : CopiesAdded [] [] Eq
  | copy {before before' : List Stage} {same : String → String → Prop} {x : Expr} {c : String}
      {span : Span} (h : CopiesAdded before before' same) (hx : CopyOfMessage before' x) :
      CopiesAdded before (.extendStage [⟨c, x, span⟩] :: before')
        fun name name' => same name name' ∧ name' ≠ c
  | stage {before before' : List Stage} {same : String → String → Prop} {s s' : Stage}
      (h : CopiesAdded before before' same) (hs : s.Alike (InPlace before before' same) s') :
      CopiesAdded (s :: before) (s' :: before') (sameAfter same s s')

/-- A Query with copies of message added to another's, and used in place of message. -/
def Query.CopiesAdded (q q' : Query) : Prop :=
  ∃ same, LogQuery.CopiesAdded (q.head ++ q.tail).reverse (q'.head ++ q'.tail).reverse same

end InPlace

section Parts

/-- An expression has the parts it was given. -/
theorem Expr.parts_withParts (x : Expr) {parts : List Expr} (h : x.parts.length = parts.length) :
    (x.withParts parts).parts = parts := by
  cases x with
  | call fn args t => rfl
  | aggregate fn x percent t =>
    cases x with
    | none => exact (List.length_eq_zero_iff.mp h.symm).symm
    | some x =>
      obtain ⟨y, rfl⟩ := List.length_eq_one_iff.mp h.symm
      rfl
  | compare | and | or | arith =>
    obtain ⟨y, z, rfl⟩ := List.length_eq_two.mp h.symm
    rfl
  | fieldRef | attributeText | columnRef | literal | always =>
    exact (List.length_eq_zero_iff.mp h.symm).symm
  | _ =>
    obtain ⟨y, rfl⟩ := List.length_eq_one_iff.mp h.symm
    rfl

/-- What is applied to its parts, if to any. -/
def Expr.worksOnText : Expr → Bool
  | .textMatch _ _ _ _ => true
  | .call _ _ _ => true
  | .parsedJSON _ => true
  | _ => false

/-- An expression made of other parts is of the same kind. -/
theorem Expr.kind_withParts (x : Expr) (parts : List Expr) :
    ((x.withParts parts).isColumn = x.isColumn ∧ (x.withParts parts).isMessage = x.isMessage ∧
      (x.withParts parts).worksOnText = x.worksOnText) ∧
      (x.parts.length = parts.length → (x.withParts parts).isAggregate = x.isAggregate) := by
  unfold Expr.withParts
  split <;> exact ⟨⟨rfl, rfl, rfl⟩, fun _ => rfl⟩

/-- An expression that is no column is a copy of message when it is the Field. -/
theorem copyOfMessage_of_not_column {before : List Stage} {x : Expr} (h : x.isColumn = false) :
    CopyOfMessage before x ↔ x.isMessage = true := by
  cases x with
  | fieldRef name builtIn t =>
    rw [Expr.isMessage, Bool.and_eq_true, beq_iff_eq]
    constructor
    · intro h
      cases h
      exact ⟨rfl, rfl⟩
    · intro h
      obtain ⟨hbuiltIn, hname⟩ := h
      rw [hbuiltIn, hname]
      exact .message
  | columnRef name t message => exact Bool.noConfusion h
  | _ =>
    simp only [Expr.isMessage, Bool.false_eq_true, iff_false]
    intro h
    cases h

/-- A copy of the message has no parts. -/
theorem parts_of_copyOfMessage {before : List Stage} {x : Expr} (h : CopyOfMessage before x) :
    x.parts = [] := by
  cases h <;> rfl

/-- Working on the message's text is reading the message in one of the parts. -/
theorem appliesToMessage_iff {before : List Stage} {x : Expr} : AppliesToMessage before x ↔
    x.worksOnText = true ∧ ∃ y ∈ x.parts, ReadsMessage before y := by
  cases x <;> simp [AppliesToMessage, Expr.worksOnText, Expr.parts]

/-- Something is within an expression when it is the expression, or within one of its parts. -/
theorem exists_within_iff {P : Expr → Prop} {x : Expr} : (∃ y : Expr, y.Within x ∧ P y) ↔
    P x ∨ ∃ part ∈ x.parts, ∃ y : Expr, y.Within part ∧ P y := by
  constructor
  · intro ⟨y, hy, hP⟩
    cases hy with
    | self => exact Or.inl hP
    | part hpart hwithin => exact Or.inr ⟨_, hpart, y, hwithin, hP⟩
  · intro h
    cases h with
    | inl hP => exact ⟨x, .self, hP⟩
    | inr h =>
      obtain ⟨part, hpart, y, hy, hP⟩ := h
      exact ⟨y, .part hpart hy, hP⟩

/-- Lists whose members correspond have one of a kind when the other does. -/
theorem exists_mem_iff_of_zip {α β : Type} {P : α → Prop} {Q : β → Prop} {xs : List α} {ys : List β}
    (hlength : xs.length = ys.length) (h : ∀ pair ∈ xs.zip ys, (P pair.1 ↔ Q pair.2)) :
    (∃ x ∈ xs, P x) ↔ ∃ y ∈ ys, Q y := by
  induction xs generalizing ys with
  | nil =>
    rw [List.length_eq_zero_iff.mp hlength.symm]
    simp
  | cons x rest ih =>
    cases ys with
    | nil => simp at hlength
    | cons y others =>
      have hfirst := h (x, y) (by simp)
      have hrest := @ih others (by simpa using hlength) fun pair hpair => h pair (by simp [hpair])
      simp only [List.mem_cons, exists_eq_or_imp, hfirst, hrest]

end Parts

section InPlace

variable {before before' : List Stage} {same : String → String → Prop} {x x' : Expr}

/-- Columns of corresponding names are copies of message both or neither. -/
def SameCopies (before before' : List Stage) (same : String → String → Prop) : Prop :=
  ∀ name name' t message, same name name' → (CopyOfMessage before (.columnRef name t message) ↔
    CopyOfMessage before' (.columnRef name' t message))

/-- An expression with no parts may stay as it is. -/
theorem InPlace.kept (hcolumn : x.isColumn = false) (hparts : x.parts = []) :
    InPlace before before' same x x := by
  have hsame : x.withParts [] = x := by
    cases x with
    | call fn args t => rw [show args = [] from hparts, Expr.withParts]
    | aggregate fn x percent t => cases x <;> rfl
    | _ => rfl
  have hkept := @InPlace.parts before before' same x [] hcolumn (by rw [hparts]) (by simp)
  rwa [hsame] at hkept

/-- Text matches of what stands in place stand in place. -/
theorem InPlace.textMatch (h : InPlace before before' same x x') (op : MatchOp) (pattern : String)
    (caseSensitive : Bool) : InPlace before before' same (.textMatch op x pattern caseSensitive)
      (.textMatch op x' pattern caseSensitive) := by
  apply @InPlace.parts _ _ _ (.textMatch op x pattern caseSensitive) [x'] rfl rfl
  intro pair hpair
  obtain rfl := List.mem_singleton.mp hpair
  exact h

/-- What stands in place is a copy where the other is. -/
theorem InPlace.copy_iff (h : InPlace before before' same x x')
    (hsame : SameCopies before before' same) : CopyOfMessage before x ↔ CopyOfMessage before' x' := by
  cases h with
  | copy hx hx' => exact iff_of_true hx hx'
  | @column name name' t message message' hname =>
    rw [hsame name name' t message hname]
    exact ⟨copyOfMessage_column, copyOfMessage_column⟩
  | @parts x parts hcolumn hlength hparts =>
    rw [copyOfMessage_of_not_column hcolumn,
      copyOfMessage_of_not_column ((x.kind_withParts parts).1.1.trans hcolumn), (x.kind_withParts parts).1.2.1]

/-- What stands in place reads the message where the other does. -/
theorem InPlace.reads_iff (h : InPlace before before' same x x')
    (hsame : SameCopies before before' same) : ReadsMessage before x ↔ ReadsMessage before' x' := by
  induction h with
  | copy hx hx' => exact iff_of_true (.copy hx) (.copy hx')
  | @column name name' t message message' hname =>
    have hcopies : CopyOfMessage before (.columnRef name t message) ↔
        CopyOfMessage before' (.columnRef name' t message') :=
      (InPlace.column hname).copy_iff hsame
    rw [readsMessage_of_parts, readsMessage_of_parts, hcopies]
    simp [Expr.parts]
  | @parts x parts hcolumn hlength hparts ih =>
    rw [readsMessage_of_parts, readsMessage_of_parts,
      (InPlace.parts hcolumn hlength hparts).copy_iff hsame, (x.kind_withParts parts).2 hlength,
      x.parts_withParts hlength, exists_mem_iff_of_zip hlength ih]

/-- What stands in place works on the message's text where the other does. -/
theorem InPlace.applies_iff (h : InPlace before before' same x x')
    (hsame : SameCopies before before' same) :
    (∃ y : Expr, y.Within x ∧ AppliesToMessage before y) ↔
      ∃ y : Expr, y.Within x' ∧ AppliesToMessage before' y := by
  induction h with
  | copy hx hx' =>
    rw [exists_within_iff, exists_within_iff, appliesToMessage_iff, appliesToMessage_iff,
      parts_of_copyOfMessage hx, parts_of_copyOfMessage hx']
    simp
  | column hname =>
    rw [exists_within_iff, exists_within_iff, appliesToMessage_iff, appliesToMessage_iff]
    simp [Expr.parts]
  | @parts x parts hcolumn hlength hparts ih =>
    have hreads : (∃ y ∈ x.parts, ReadsMessage before y) ↔ ∃ y ∈ parts, ReadsMessage before' y :=
      exists_mem_iff_of_zip hlength fun pair hpair => (hparts pair hpair).reads_iff hsame
    have hwithin : (∃ part ∈ x.parts, ∃ y : Expr, y.Within part ∧ AppliesToMessage before y) ↔
        ∃ part ∈ parts, ∃ y : Expr, y.Within part ∧ AppliesToMessage before' y :=
      exists_mem_iff_of_zip hlength ih
    rw [exists_within_iff, exists_within_iff, appliesToMessage_iff, appliesToMessage_iff,
      (x.kind_withParts parts).1.2.2, x.parts_withParts hlength, hreads, hwithin]

/-- Columns whose values are alike have expressions that are. -/
theorem ValuesAlike.exprs {columns columns' : List NamedValue} {alike : Expr → Expr → Prop}
    (h : ValuesAlike alike columns columns') :
    List.Forall₂ alike (columns.map NamedValue.x) (columns'.map NamedValue.x) := by
  rw [List.forall₂_map_left_iff, List.forall₂_map_right_iff]
  exact h

/-- The expressions of stages alike are. -/
theorem Stage.Alike.exprs {s s' : Stage} {alike : Expr → Expr → Prop} (h : s.Alike alike s') :
    List.Forall₂ alike s.exprs s'.exprs := by
  unfold Stage.Alike at h
  split at h
  · exact .cons h .nil
  · exact .nil
  · exact ValuesAlike.exprs h
  · exact ValuesAlike.exprs h
  · rw [Stage.exprs, Stage.exprs, List.map_append, List.map_append]
    exact List.rel_append h.1.exprs h.2.exprs
  · rw [Stage.exprs, Stage.exprs, List.forall₂_map_left_iff, List.forall₂_map_right_iff]
    exact h.imp fun _ _ hkey => hkey.1
  · exact .nil
  · exact .cons h.2.1 .nil
  · exact .nil
  · exact ValuesAlike.exprs h
  · exact h.elim

/-- A stage that is like a search is one. -/
theorem Stage.Alike.search_iff {s s' : Stage} {alike : Expr → Expr → Prop} (h : s.Alike alike s') :
    (∃ terms, s = .searchStage terms) ↔ ∃ terms, s' = .searchStage terms := by
  unfold Stage.Alike at h
  split at h <;> first | exact h.elim | simp

/-- A stage works on the message's text where one like it does. -/
theorem Stage.Alike.matchesText_iff {s s' : Stage} (h : s.Alike (InPlace before before' same) s')
    (hsame : SameCopies before before' same) : s.MatchesText before ↔ s'.MatchesText before' := by
  have hexprs := List.forall₂_iff_zip.mp h.exprs
  have happlies : (∃ x ∈ s.exprs, ∃ y : Expr, y.Within x ∧ AppliesToMessage before y) ↔
      ∃ x ∈ s'.exprs, ∃ y : Expr, y.Within x ∧ AppliesToMessage before' y :=
    exists_mem_iff_of_zip hexprs.1 fun pair hpair => (hexprs.2 hpair).applies_iff hsame
  simp only [Stage.MatchesText, Stage.hasExpr_iff]
  rw [h.search_iff, happlies]

/-- A stage makes its columns by different names. -/
def Stage.NamesOnce (s : Stage) : Prop := (s.columns.map NamedValue.name).Nodup

/-- A column of those named once is found by its name. -/
theorem find_of_mem {columns : List NamedValue} (hnames : (columns.map NamedValue.name).Nodup)
    {v : NamedValue} (hv : v ∈ columns) : columns.find? (·.name == v.name) = some v := by
  induction columns with
  | nil => simp at hv
  | cons first rest ih =>
    rw [List.map_cons, List.nodup_cons] at hnames
    rw [List.find?_cons]
    cases List.mem_cons.mp hv with
    | inl hfirst =>
      subst hfirst
      simp
    | inr hrest =>
      have hdiffers : first.name ≠ v.name := by
        intro hsame
        exact hnames.1 (hsame ▸ List.mem_map_of_mem hrest)
      simp only [beq_eq_false_iff_ne.mpr hdiffers]
      exact ih hnames.2 hrest

/-- The value of a column of those named once is found by its name. -/
theorem findColumn_of_mem {columns : List NamedValue}
    (hnames : (columns.map NamedValue.name).Nodup) {v : NamedValue} (hv : v ∈ columns) :
    findColumn columns v.name = some v.x := by
  rw [findColumn_eq, find_of_mem hnames hv, Option.map_some]

/-- Columns that stages alike make of values alike are made of them, or lost both. -/
theorem Stage.Alike.made {s s' : Stage} {alike : Expr → Expr → Prop} (h : s.Alike alike s')
    (hnames : s.NamesOnce) (hnames' : s'.NamesOnce) {pair : NamedValue × NamedValue}
    (hpair : pair ∈ s.columns.zip s'.columns) :
    (made s pair.1.name = .value pair.1.x ∧ LogQuery.made s' pair.2.name = .value pair.2.x ∧
        alike pair.1.x pair.2.x) ∨
      (LogQuery.made s pair.1.name = .lost ∧ LogQuery.made s' pair.2.name = .lost) := by
  have hvalue {columns columns' : List NamedValue} (halike : ValuesAlike alike columns columns')
      (hnames : (columns.map NamedValue.name).Nodup) (hnames' : (columns'.map NamedValue.name).Nodup)
      (hpair : pair ∈ columns.zip columns') : findColumn columns pair.1.name = some pair.1.x ∧
        findColumn columns' pair.2.name = some pair.2.x ∧ alike pair.1.x pair.2.x := by
    obtain ⟨hfirst, hsecond⟩ := List.of_mem_zip hpair
    exact ⟨findColumn_of_mem hnames hfirst, findColumn_of_mem hnames' hsecond,
      (List.forall₂_iff_zip.mp halike).2 hpair⟩
  -- a summarize's aggregates are no values of its rows, and named apart from its by columns
  have hlost {columns aggregates : List NamedValue} {v : NamedValue}
      (hnames : ((columns ++ aggregates).map NamedValue.name).Nodup) (hv : v ∈ aggregates) :
      findColumn columns v.name = none := by
    rw [List.map_append, List.nodup_append] at hnames
    rw [findColumn_eq, Option.map_eq_none_iff, List.find?_eq_none]
    intro other hother hsame
    exact hnames.2.2 other.name (List.mem_map_of_mem hother) v.name (List.mem_map_of_mem hv)
      (beq_iff_eq.mp hsame)
  unfold Stage.Alike at h
  split at h
  case h_3 | h_4 | h_10 =>
    obtain ⟨hfirst, hsecond, halike⟩ := hvalue h hnames hnames' hpair
    exact Or.inl ⟨by simp [LogQuery.made, hfirst], by simp [LogQuery.made, hsecond], halike⟩
  case h_5 columnsBy aggregates columnsBy' aggregates' =>
    rw [Stage.columns, Stage.columns, List.zip_append h.1.length_eq, List.mem_append] at hpair
    cases hpair with
    | inl hby =>
      rw [NamesOnce, columns, List.map_append] at hnames hnames'
      obtain ⟨hfirst, hsecond, halike⟩ := hvalue h.1 (List.nodup_append.mp hnames).1
        (List.nodup_append.mp hnames').1 hby
      exact Or.inl ⟨by simp [LogQuery.made, hfirst], by simp [LogQuery.made, hsecond], halike⟩
    | inr haggregates =>
      obtain ⟨hfirst, hsecond⟩ := List.of_mem_zip haggregates
      exact Or.inr ⟨by simp [LogQuery.made, hlost hnames hfirst],
        by simp [LogQuery.made, hlost hnames' hsecond]⟩
  case h_11 => exact h.elim
  all_goals simp [Stage.columns] at hpair

/-- After stages alike, the columns that correspond are copies of message both or neither. -/
theorem Stage.Alike.sameCopies {s s' : Stage} (h : s.Alike (InPlace before before' same) s')
    (hsame : SameCopies before before' same) (hnames : s.NamesOnce) (hnames' : s'.NamesOnce) :
    SameCopies (s :: before) (s' :: before') (sameAfter same s s') := by
  intro name name' t message hafter
  cases hafter with
  | inl hpair =>
    obtain ⟨pair, hpair, rfl, rfl⟩ := hpair
    cases h.made hnames hnames' hpair with
    | inl hmade =>
      rw [copyOfMessage_made hmade.1, copyOfMessage_made hmade.2.1]
      exact hmade.2.2.copy_iff hsame
    | inr hlost =>
      exact iff_of_false (not_copyOfMessage_lost hlost.1) (not_copyOfMessage_lost hlost.2)
  | inr hkept =>
    rw [copyOfMessage_kept hkept.1, copyOfMessage_kept hkept.2.1]
    exact hsame name name' t message hkept.2.2

/-- Copies that are added copy the message where the names they stand for do. -/
theorem CopiesAdded.sameCopies (h : LogQuery.CopiesAdded before before' same)
    (hnames : ∀ s ∈ before, s.NamesOnce) (hnames' : ∀ s ∈ before', s.NamesOnce) :
    SameCopies before before' same := by
  induction h with
  | start =>
    rintro name name' t message rfl
    exact Iff.rfl
  | @copy before before' same x c span h hx ih =>
    intro name name' t message hname
    have hkept : made (.extendStage [⟨c, x, span⟩]) name' = .kept := by
      simp [made, findColumn_eq, Ne.symm hname.2]
    rw [copyOfMessage_kept hkept]
    exact ih hnames (fun s hs => hnames' s (List.mem_cons_of_mem _ hs)) name name' t message hname.1
  | @stage before before' same s s' h hs ih =>
    apply hs.sameCopies
    · exact ih (fun s hs => hnames s (List.mem_cons_of_mem _ hs))
        (fun s hs => hnames' s (List.mem_cons_of_mem _ hs))
    · exact hnames s List.mem_cons_self
    · exact hnames' s' List.mem_cons_self

/-- Some stage matches text, of stages the last of which is first. -/
def SomeMatchesText : List Stage → Prop
  | [] => False
  | s :: before => s.MatchesText before ∨ SomeMatchesText before

/-- Some stage works on the message's text where one does before copies are added. -/
theorem CopiesAdded.matchesText_iff (h : LogQuery.CopiesAdded before before' same)
    (hnames : ∀ s ∈ before, s.NamesOnce) (hnames' : ∀ s ∈ before', s.NamesOnce) :
    SomeMatchesText before ↔ SomeMatchesText before' := by
  induction h with
  | start => exact Iff.rfl
  | @copy before before' same x c span h hx ih =>
    have hcopy : ¬ Stage.MatchesText before' (.extendStage [⟨c, x, span⟩]) := by
      intro hmatches
      cases hmatches with
      | inl hsearch => simp at hsearch
      | inr happlies =>
        obtain ⟨y, hy, hwithin⟩ := happlies
        obtain rfl := List.mem_singleton.mp (Stage.hasExpr_iff.mp hy)
        rw [exists_within_iff, appliesToMessage_iff, parts_of_copyOfMessage hx] at hwithin
        simp at hwithin
    rw [SomeMatchesText, ← ih hnames fun s hs => hnames' s (List.mem_cons_of_mem _ hs)]
    simp [hcopy]
  | @stage before before' same s s' h hs ih =>
    have hnamesBefore := fun s hs => hnames s (List.mem_cons_of_mem _ hs)
    have hnamesBefore' := fun s hs => hnames' s (List.mem_cons_of_mem _ hs)
    rw [SomeMatchesText, SomeMatchesText, ih hnamesBefore hnamesBefore',
      hs.matchesText_iff (h.sameCopies hnamesBefore hnamesBefore')]

/-- Some stage works on the message's text when one does after those before it. -/
theorem someMatchesText_iff {stages : List Stage} : SomeMatchesText stages ↔
    ∃ after s before, stages = after ++ s :: before ∧ s.MatchesText before := by
  induction stages with
  | nil => simp [SomeMatchesText]
  | cons s rest ih =>
    rw [SomeMatchesText, ih]
    constructor
    · intro h
      cases h with
      | inl hs => exact ⟨[], s, rest, rfl, hs⟩
      | inr hrest =>
        obtain ⟨after, s', before, rfl, hs⟩ := hrest
        exact ⟨s :: after, s', before, rfl, hs⟩
    · intro ⟨after, s', before, hsplit, hs⟩
      cases after with
      | nil =>
        obtain ⟨rfl, rfl⟩ := List.cons.inj hsplit
        exact Or.inl hs
      | cons first after =>
        obtain ⟨-, rfl⟩ := List.cons.inj hsplit
        exact Or.inr ⟨after, s', before, rfl, hs⟩

/-- A Query works on the message's text when one of its stages does. -/
theorem Query.matchesText_iff_some (q : Query) :
    q.MatchesText ↔ SomeMatchesText (q.head ++ q.tail).reverse := by
  rw [someMatchesText_iff, Query.MatchesText]
  constructor
  · intro ⟨before, s, after, hsplit, hs⟩
    exact ⟨after.reverse, s, before.reverse, by simp [hsplit], hs⟩
  · intro ⟨after, s, before, hsplit, hs⟩
    refine ⟨before.reverse, s, after.reverse, ?_, by rwa [List.reverse_reverse]⟩
    rw [← List.reverse_reverse (q.head ++ q.tail), hsplit]
    simp

end InPlace

section Queries

variable {env : Env} {tree : Syntax.Query} {q : Query}

/-- A checked stage names its columns once. -/
theorem StageChecked.namesOnce {lib : Library} {scope : Scope} {others : List Stage} {s : Stage}
    (h : StageChecked lib others scope s) : s.NamesOnce := by
  cases s with
  | projectStage columns => exact h.2
  | extendStage columns => exact h.2
  | summarizeStage columnsBy aggregates => exact h.2.2.2.2
  | distinctStage columns => exact h.2
  | _ => exact List.nodup_nil

/-- The stages of a checked Query name their columns once. -/
theorem QueryChecked.namesOnce {lib : Library} (h : QueryChecked lib q) :
    ∀ s ∈ (q.head ++ q.tail).reverse, s.NamesOnce := by
  intro s hs
  obtain ⟨before, after, hsplit⟩ := List.append_of_mem (List.mem_reverse.mp hs)
  obtain ⟨others, scope, hchecked, -⟩ := h.stage_marked hsplit
  exact hchecked.namesOnce

/-- A compiled Query matches text when a stage of it searches or applies a text match, a scalar function
or parse_json to message or a copy of it, and so it does with copies of message added and used in place
of message. -/
theorem compileQuery_matchesText_iff (h : compileQuery env tree = .ok q) :
    (q.matchesText = true ↔ q.MatchesText) ∧
      ∀ env' tree' q', compileQuery env' tree' = .ok q' → q.CopiesAdded q' →
        q'.matchesText = q.matchesText := by
  have hchecked := compileQuery_checked h
  refine ⟨hchecked.matchesText_iff, ?_⟩
  intro env' tree' q' h' hcopies
  have hchecked' := compileQuery_checked h'
  obtain ⟨same, hcopies⟩ := hcopies
  rw [Bool.eq_iff_iff, hchecked.matchesText_iff, hchecked'.matchesText_iff, q.matchesText_iff_some,
    q'.matchesText_iff_some, hcopies.matchesText_iff hchecked.namesOnce hchecked'.namesOnce]

/-- `project level, message | where message contains "refused"`. -/
private def refusedTree : Syntax.Query :=
  ⟨none, [
    .projectStage .null .null [⟨none, Sample.field "level"⟩, ⟨none, Sample.field "message"⟩],
    .whereStage .null .null
      (Sample.binary .contains (Sample.field "message") (Sample.text "refused"))]⟩

/-- `extend m = message | project level, m | where m contains "refused"`. -/
private def refusedInCopyTree : Syntax.Query :=
  ⟨none, [
    .extendStage .null .null [⟨some ⟨"m", .null, false⟩, Sample.field "message"⟩],
    .projectStage .null .null [⟨none, Sample.field "level"⟩, ⟨none, Sample.field "m"⟩],
    .whereStage .null .null (Sample.binary .contains (Sample.field "m") (Sample.text "refused"))]⟩

private def isRefused (q : Query) : Bool :=
  match q.head, q.tail with
  | [], [.projectStage [⟨"level", .fieldRef "level" true .string, _⟩,
        ⟨"message", .fieldRef "message" true .string, _⟩],
      .whereStage (.textMatch .contains (.columnRef "message" .string true) "refused" false)] => true
  | _, _ => false

private def isRefusedInCopy (q : Query) : Bool :=
  match q.head, q.tail with
  | [], [.extendStage [⟨"m", .fieldRef "message" true .string, _⟩],
      .projectStage [⟨"level", .fieldRef "level" true .string, _⟩,
        ⟨"m", .columnRef "m" .string true, _⟩],
      .whereStage (.textMatch .contains (.columnRef "m" .string true) "refused" false)] => true
  | _, _ => false

/-- `project message`, which reads message and matches no text. -/
private def messageTree : Syntax.Query :=
  ⟨none, [.projectStage .null .null [⟨none, Sample.field "message"⟩]]⟩

private def isMessageOnly (q : Query) : Bool :=
  match q.head, q.tail with
  | [], [.projectStage [⟨"message", .fieldRef "message" true .string, _⟩]] => true
  | _, _ => false

/-- The Query that is refused is refused as well when it works on a copy. -/
theorem matchesText_iff_refused :
    (∃ q q', compileQuery Sample.env refusedTree = .ok q ∧
      compileQuery Sample.env refusedInCopyTree = .ok q' ∧ q.CopiesAdded q' ∧
      q.MatchesText ∧ q.matchesText = true ∧ q'.matchesText = true) ∧
    ∃ q, compileQuery Sample.env messageTree = .ok q ∧ ¬ q.MatchesText ∧ q.matchesText = false := by
  constructor
  · obtain ⟨q, hq, htest⟩ := @Sample.exists_of_compilesTo refusedTree isRefused (by decide +kernel)
    obtain ⟨q', hq', htest'⟩ :=
      @Sample.exists_of_compilesTo refusedInCopyTree isRefusedInCopy (by decide +kernel)
    have hmatches : q.MatchesText := by
      unfold isRefused at htest
      split at htest
      next hhead htail =>
        refine ⟨[_], _, [], by rw [hhead, htail]; rfl, .inr ⟨_, .tested, _, .self, ?_⟩⟩
        exact .copy (.made rfl .message)
      · exact Bool.noConfusion htest
    have hcopies : q.CopiesAdded q' := by
      unfold isRefused at htest
      unfold isRefusedInCopy at htest'
      split at htest
      next hhead htail =>
        split at htest'
        next hhead' htail' =>
          rw [Query.CopiesAdded, hhead, htail, hhead', htail']
          refine ⟨_, .stage (.stage (.copy .start .message) ?_) ?_⟩
          · exact .cons (.kept rfl rfl) (.cons (.copy .message (.made rfl .message)) .nil)
          · exact InPlace.textMatch (.copy (.made rfl .message) (.made rfl (.made rfl .message))) _ _ _
        · exact Bool.noConfusion htest'
      · exact Bool.noConfusion htest
    have hq₂ := compileQuery_matchesText_iff hq
    have htext := hq₂.1.mpr hmatches
    exact ⟨q, q', hq, hq', hcopies, hmatches, htext,
      (hq₂.2 Sample.env refusedInCopyTree q' hq' hcopies).trans htext⟩
  · obtain ⟨q, hq, htest⟩ := @Sample.exists_of_compilesTo messageTree isMessageOnly (by decide +kernel)
    have htext : q.matchesText = false := by
      unfold isMessageOnly at htest
      split at htest
      next hhead htail =>
        rw [Query.matchesText, hhead, htail]
        rfl
      · exact Bool.noConfusion htest
    refine ⟨q, hq, fun hmatches => ?_, htext⟩
    rw [(compileQuery_matchesText_iff hq).1.mpr hmatches] at htext
    exact Bool.noConfusion htext

end Queries

end SolidTrace.LogQuery
