import SolidTrace.Lib.Backtrack

/-!
# A select's options as text

A Dashboard filter's options are edited as text, one a line: a value, or a label, an `=` between
spaces and the value. A text is its UTF-16 code units.
-/

namespace SolidTrace.Dashboards

section Model

abbrev Text := List UInt16

def newline : UInt16 := 10

def space : UInt16 := 32

def equals : UInt16 := 61

/-- `\s`, which is also what `trim` takes off. -/
def isSpace (u : UInt16) : Bool :=
  u.toNat ∈ [0x09, 0x0A, 0x0B, 0x0C, 0x0D, 0x20, 0xA0, 0x1680, 0x2028, 0x2029, 0x202F, 0x205F, 0x3000,
    0xFEFF] || (0x2000 ≤ u.toNat && u.toNat ≤ 0x200A)

/-- What `.` doesn't match. -/
def endsLine (u : UInt16) : Bool := u.toNat ∈ [0x0A, 0x0D, 0x2028, 0x2029]

def trim (text : Text) : Text := ((text.dropWhile isSpace).reverse.dropWhile isSpace).reverse

structure FilterOption where
  label : Text
  value : Text
deriving DecidableEq

/-- `\s+=\s+(.*)$`, and what its group takes. -/
def separated : Text → Option Text :=
  Backtrack.plus isSpace fun text =>
    match text with
    | u :: text => if u = equals then Backtrack.plus isSpace toEnd text else none
    | [] => none
where
  /-- `(.*)$`. -/
  toEnd (text : Text) : Option Text := if text.all (fun u => !endsLine u) then some text else none

/-- `/^(.*?)\s+=\s+(.*)$/`, and what its groups take. -/
def labelledOption (line : Text) : Option (Text × Text) :=
  Backtrack.lazily (fun u => !endsLine u) separated line

/-- One option, from its line. -/
def optionOfLine (line : Text) : FilterOption :=
  match labelledOption line with
  | some (label, value) => ⟨label, value⟩
  | none => ⟨line, line⟩

/-- A text's lines, trimmed, less the blank ones. -/
def linesOf (text : Text) : List Text := ((text.splitOn newline).map trim).filter (· ≠ [])

/-- A select's options typed one per line. -/
def optionsOfText (text : Text) : List FilterOption := (linesOf text).map optionOfLine

/-- One option's line. -/
def lineOfOption (o : FilterOption) : Text :=
  if o.label = o.value then o.value else o.label ++ [space, equals, space] ++ o.value

/-- Options as optionsOfText reads them. -/
def textOfOptions (items : List FilterOption) : Text :=
  [newline].intercalate (items.map lineOfOption)

end Model

section Trimming

/-- A text that has no space at either end, and more than nothing between them. -/
structure Trimmed (text : Text) : Prop where
  ne : text ≠ []
  first : ∀ u ∈ text.head?, isSpace u = false
  last : ∀ u ∈ text.getLast?, isSpace u = false

/-- A text that does not start with a space keeps its start. -/
theorem dropWhile_of_head {text : Text} (h : ∀ u ∈ text.head?, isSpace u = false) :
    text.dropWhile isSpace = text := by
  cases text with
  | nil => rfl
  | cons u text => exact List.dropWhile_cons_of_neg (by simp [h u rfl])

/-- A text without its leading spaces does not start with one. -/
theorem head_dropWhile (text : Text) : ∀ u ∈ (text.dropWhile isSpace).head?, isSpace u = false := by
  intro u hu
  have hhead := List.head?_dropWhile_not isSpace text
  rw [Option.mem_def.1 hu] at hhead
  simpa using hhead

/-- A trimmed text has nothing to trim. -/
theorem Trimmed.trim {text : Text} (h : Trimmed text) : trim text = text := by
  have hlast : ∀ u ∈ text.reverse.head?, isSpace u = false := by
    rw [List.head?_reverse]
    exact h.last
  rw [Dashboards.trim, dropWhile_of_head h.first, dropWhile_of_head hlast, List.reverse_reverse]

/-- What is left after trimming is trimmed. -/
theorem trimmed_trim {text : Text} (hne : trim text ≠ []) : Trimmed (trim text) := by
  refine ⟨hne, ?_, ?_⟩
  · -- The second step only drops from the end, so the first character is the first step's.
    have hsuffix := List.dropWhile_suffix isSpace (l := (text.dropWhile isSpace).reverse)
    obtain ⟨rest, hrest⟩ := List.reverse_prefix.2 hsuffix
    rw [List.reverse_reverse] at hrest
    intro u hu
    apply head_dropWhile text u
    obtain ⟨first, trimmed, htrim⟩ := List.exists_cons_of_ne_nil hne
    rw [htrim] at hu
    rw [← hrest]
    change u ∈ (trim text ++ rest).head?
    rw [htrim]
    exact hu
  · rw [Dashboards.trim, List.getLast?_reverse]
    exact head_dropWhile _

/-- A text that trimming leaves as it is, is trimmed. -/
theorem trimmed_of_trim {text : Text} (h : trim text = text) (hne : text ≠ []) : Trimmed text := by
  rw [← h] at hne ⊢
  rw [h] at hne
  exact trimmed_trim (h.symm ▸ hne)

/-- Trimming adds nothing. -/
theorem trim_subset {text : Text} {u : UInt16} (h : u ∈ trim text) : u ∈ text := by
  rw [Dashboards.trim, List.mem_reverse] at h
  have hfirst := (List.dropWhile_sublist isSpace).mem h
  rw [List.mem_reverse] at hfirst
  exact (List.dropWhile_sublist isSpace).mem hfirst

end Trimming

section Lines

/-- A label and a value that aren't empty, with no space at either end, on one line. -/
structure FilterOption.OnOneLine (o : FilterOption) : Prop where
  label_ne : o.label ≠ []
  value_ne : o.value ≠ []
  label_trim : trim o.label = o.label
  value_trim : trim o.value = o.value
  label_line : newline ∉ o.label
  value_line : newline ∉ o.value

/-- The label of an option on one line is trimmed. -/
theorem FilterOption.OnOneLine.label {o : FilterOption} (h : o.OnOneLine) : Trimmed o.label :=
  trimmed_of_trim h.label_trim h.label_ne

/-- The value of an option on one line is trimmed. -/
theorem FilterOption.OnOneLine.value {o : FilterOption} (h : o.OnOneLine) : Trimmed o.value :=
  trimmed_of_trim h.value_trim h.value_ne

/-- The line of an option is trimmed. -/
theorem trimmed_lineOfOption {o : FilterOption} (h : o.OnOneLine) : Trimmed (lineOfOption o) := by
  unfold lineOfOption
  split
  · exact h.value
  · obtain ⟨u, label, hlabel⟩ := List.exists_cons_of_ne_nil h.label_ne
    refine ⟨by simp [hlabel], fun c hc => h.label.first c ?_, fun c hc => h.value.last c ?_⟩
    · rw [hlabel] at hc ⊢
      exact hc
    · rw [List.getLast?_append, List.getLast?_eq_some_getLast h.value_ne, Option.some_or] at hc
      rwa [List.getLast?_eq_some_getLast h.value_ne]

/-- The line of an option holds no line break. -/
theorem newline_not_mem_lineOfOption {o : FilterOption} (h : o.OnOneLine) : newline ∉ lineOfOption o := by
  unfold lineOfOption
  split
  · exact h.value_line
  · have hseparator : newline ∉ [space, equals, space] := by decide
    simp only [List.mem_append, not_or]
    exact ⟨⟨h.label_line, hseparator⟩, h.value_line⟩

/-- The lines of options' text are the options' lines. -/
theorem linesOf_textOfOptions {items : List FilterOption} (h : ∀ o ∈ items, o.OnOneLine) :
    linesOf (textOfOptions items) = items.map lineOfOption := by
  by_cases hitems : items = []
  · subst hitems
    decide
  · have hlines : (textOfOptions items).splitOn newline = items.map lineOfOption := by
      apply List.splitOn_intercalate newline
      · intro line hline
        obtain ⟨o, ho, rfl⟩ := List.mem_map.1 hline
        exact newline_not_mem_lineOfOption (h o ho)
      · simpa using hitems
    have htrim : (items.map lineOfOption).map trim = items.map lineOfOption := by
      rw [List.map_map]
      apply List.map_congr_left
      intro o ho
      exact (trimmed_lineOfOption (h o ho)).trim
    rw [linesOf, hlines, htrim, List.filter_eq_self]
    intro line hline
    obtain ⟨o, ho, rfl⟩ := List.mem_map.1 hline
    exact decide_eq_true (trimmed_lineOfOption (h o ho)).ne

/-- Options survive their text when each survives its line. -/
theorem optionsOfText_textOfOptions_iff {items : List FilterOption} (h : ∀ o ∈ items, o.OnOneLine) :
    optionsOfText (textOfOptions items) = items ↔ ∀ o ∈ items, optionOfLine (lineOfOption o) = o := by
  rw [optionsOfText, linesOf_textOfOptions h, List.map_map]
  have hinj := List.map_inj_left (l := items) (f := optionOfLine ∘ lineOfOption) (g := id)
  rwa [List.map_id] at hinj

/-- The parts of a text that is split do not hold what it is split at. -/
theorem not_mem_of_mem_splitOn {u : UInt16} {text part : Text} (h : part ∈ text.splitOn u) : u ∉ part := by
  induction text generalizing part with
  | nil =>
    obtain rfl : part = [] := by simpa using h
    exact List.not_mem_nil
  | cons c text ih =>
    rw [List.splitOn_cons_eq_if_modifyHead] at h
    split at h
    case isTrue =>
      rcases List.mem_cons.1 h with rfl | h
      · exact List.not_mem_nil
      · exact ih h
    case isFalse hc =>
      obtain ⟨first, rest, hparts⟩ := List.exists_cons_of_ne_nil (List.splitOn_ne_nil u text)
      rw [hparts, List.modifyHead_cons] at h
      rcases List.mem_cons.1 h with rfl | h
      · have hfirst := ih (hparts ▸ List.mem_cons_self)
        simp only [beq_iff_eq] at hc
        simp only [List.mem_cons, not_or]
        exact ⟨fun heq => hc heq.symm, hfirst⟩
      · exact ih (hparts ▸ List.mem_cons_of_mem _ h)

/-- The lines of a text are trimmed and hold no line break. -/
theorem trimmed_of_mem_linesOf {text line : Text} (h : line ∈ linesOf text) :
    Trimmed line ∧ newline ∉ line := by
  rw [linesOf, List.mem_filter, List.mem_map] at h
  obtain ⟨⟨written, hwritten, rfl⟩, hne⟩ := h
  exact ⟨trimmed_trim (of_decide_eq_true hne), fun hmem => not_mem_of_mem_splitOn hwritten (trim_subset hmem)⟩

end Lines

section Separators

def Spaces (text : Text) : Prop := text ≠ [] ∧ ∀ u ∈ text, isSpace u = true

def OneLine (text : Text) : Prop := ∀ u ∈ text, endsLine u = false

/-- A line as a label, an `=` between spaces, and a value. -/
structure Splits (line label before after value : Text) : Prop where
  eq : line = label ++ (before ++ equals :: (after ++ value))
  before : Spaces before
  after : Spaces after
  label : OneLine label
  value : OneLine value

/-- The value is all that is left, where it is on one line. -/
theorem toEnd_eq_some_iff {text value : Text} :
    separated.toEnd text = some value ↔ value = text ∧ OneLine text := by
  have hline : text.all (fun u => !endsLine u) = true ↔ OneLine text := by simp [OneLine]
  rw [separated.toEnd, Option.ite_none_right_eq_some, hline, Option.some.injEq, eq_comm, and_comm]

/-- A separator is an equals sign with the spaces around it, and a value on one line after it. -/
theorem separated_eq_some_iff {text value : Text} :
    separated text = some value ↔ ∃ before after, text = before ++ equals :: (after ++ value) ∧
      Spaces before ∧ Spaces after ∧ OneLine value ∧ ∀ u ∈ value.head?, isSpace u = false := by
  have hend : ∀ u rest, isSpace u = true → separated.toEnd rest = none →
      separated.toEnd (u :: rest) = none := by
    intro u rest _ hrest
    rw [Option.eq_none_iff_forall_not_mem] at hrest ⊢
    intro value hvalue
    exact hrest rest (toEnd_eq_some_iff.2 ⟨rfl, fun c hc =>
      (toEnd_eq_some_iff.1 hvalue).2 c (List.mem_cons_of_mem _ hc)⟩)
  have hequals : isSpace equals = false := by decide
  unfold separated
  rw [Backtrack.plus_eq_some_iff]
  case hk =>
    intro u rest hu _
    have hne : u ≠ equals := by
      rintro rfl
      rw [hequals] at hu
      cases hu
    exact if_neg hne
  constructor
  · rintro ⟨before, rest, rfl, hne, hbefore, -, hrest⟩
    split at hrest
    case h_2 => cases hrest
    case h_1 u rest =>
      split at hrest
      case isFalse => cases hrest
      case isTrue hu =>
        obtain ⟨after, rest, rfl, hne', hafter, hhead, hrest⟩ := (Backtrack.plus_eq_some_iff _ hend).1 hrest
        obtain ⟨rfl, hline⟩ := toEnd_eq_some_iff.1 hrest
        exact ⟨before, after, by rw [hu], ⟨hne, hbefore⟩, ⟨hne', hafter⟩, hline, hhead⟩
  · rintro ⟨before, after, rfl, hbefore, hafter, hline, hhead⟩
    refine ⟨before, equals :: (after ++ value), rfl, hbefore.1, hbefore.2, ?_, ?_⟩
    · rintro u ⟨⟩
      exact hequals
    · simp only [if_true]
      exact (Backtrack.plus_eq_some_iff _ hend).2
        ⟨after, value, rfl, hafter.1, hafter.2, hhead, toEnd_eq_some_iff.2 ⟨rfl, hline⟩⟩

/-- Wherever a line splits, the pattern's rest matches: the spaces a value starts with are taken too. -/
theorem Splits.separated_ne_none {line label before after value : Text}
    (h : Splits line label before after value) :
    separated (before ++ equals :: (after ++ value)) ≠ none := by
  rw [Option.ne_none_iff_exists']
  refine ⟨value.dropWhile isSpace, separated_eq_some_iff.2
    ⟨before, after ++ value.takeWhile isSpace, ?_, h.before, ⟨by simp [h.after.1], ?_⟩, ?_, ?_⟩⟩
  · rw [List.append_assoc after, List.takeWhile_append_dropWhile]
  · intro u hu
    rcases List.mem_append.1 hu with hu | hu
    · exact h.after.2 u hu
    · exact List.mem_takeWhile_imp hu
  · exact fun u hu => h.value u ((List.dropWhile_sublist _).mem hu)
  · exact head_dropWhile value

/-- A label and a value are read where the line first splits. -/
theorem labelledOption_eq_some_iff {line label value : Text} :
    labelledOption line = some (label, value) ↔
      (∃ before after, Splits line label before after value) ∧ (∀ u ∈ value.head?, isSpace u = false) ∧
      ∀ label' before after value', Splits line label' before after value' →
        label.length ≤ label'.length := by
  have hdot {text : Text} : (∀ u ∈ text, (!endsLine u) = true) ↔ OneLine text := by simp [OneLine]
  rw [labelledOption, Backtrack.lazily_eq_some_iff]
  constructor
  · rintro ⟨rest, hline, hlabel, hrest, hshortest⟩
    obtain ⟨before, after, rfl, hbefore, hafter, hvalue, hhead⟩ := separated_eq_some_iff.1 hrest
    refine ⟨⟨before, after, hline, hbefore, hafter, hdot.1 hlabel, hvalue⟩, hhead, ?_⟩
    intro label' before' after' value' h
    by_contra hlt
    exact h.separated_ne_none (hshortest label' _ h.eq (Nat.lt_of_not_le hlt))
  · rintro ⟨⟨before, after, h⟩, hhead, hshortest⟩
    refine ⟨_, h.eq, hdot.2 h.label, separated_eq_some_iff.2
      ⟨before, after, rfl, h.before, h.after, h.value, hhead⟩, ?_⟩
    intro label' rest' hline hlt
    rw [Option.eq_none_iff_forall_not_mem]
    intro value' hvalue'
    obtain ⟨before', after', rfl, hbefore', hafter', hvalue', -⟩ := separated_eq_some_iff.1 hvalue'
    -- A shorter label is the start of this one, so it too is on one line.
    have hlabel' : OneLine label' := by
      have hpre : label' <+: label :=
        List.prefix_of_prefix_length_le ⟨_, hline.symm⟩ ⟨_, h.eq.symm⟩ hlt.le
      exact fun u hu => h.label u (hpre.mem hu)
    exact absurd (hshortest _ _ _ _ ⟨hline, hbefore', hafter', hlabel', hvalue'⟩) (Nat.not_le_of_lt hlt)

/-- No label and value are read where the line does not split. -/
theorem labelledOption_eq_none_iff {line : Text} :
    labelledOption line = none ↔ ∀ label before after value, ¬ Splits line label before after value := by
  have hdot {text : Text} : (∀ u ∈ text, (!endsLine u) = true) ↔ OneLine text := by simp [OneLine]
  rw [labelledOption, Backtrack.lazily_eq_none_iff]
  constructor
  · intro h label before after value hsplits
    exact hsplits.separated_ne_none (h label _ hsplits.eq (hdot.2 hsplits.label))
  · intro h label rest hline hlabel
    rw [Option.eq_none_iff_forall_not_mem]
    intro value hvalue
    obtain ⟨before, after, rfl, hbefore, hafter, hvalue, -⟩ := separated_eq_some_iff.1 hvalue
    exact h label before after value ⟨hline, hbefore, hafter, hdot.1 hlabel, hvalue⟩

end Separators

section Reading

/-- An `=` stands between two spaces in the text. -/
def HoldsSeparator (text : Text) : Prop :=
  ∃ a x y b, text = a ++ x :: equals :: y :: b ∧ isSpace x = true ∧ isSpace y = true

/-- The text ends in an `=` after a space. -/
def EndsInSeparator (text : Text) : Prop := ∃ a x, text = a ++ [x, equals] ∧ isSpace x = true

/-- A label that holds another label's separator holds it inside or ends in it. -/
theorem holds_or_ends {label label' before' rest : Text} (h : label = label' ++ (before' ++ equals :: rest))
    (hbefore' : Spaces before') (hrest : ∀ u ∈ rest.head?, isSpace u = true) :
    rest ≠ [] ∧ HoldsSeparator label ∨ rest = [] ∧ EndsInSeparator label := by
  obtain ⟨spaces, x, rfl⟩ := List.eq_nil_or_concat before' |>.resolve_left hbefore'.1
  have hx := hbefore'.2 x (by simp)
  cases rest with
  | nil => exact .inr ⟨rfl, label' ++ spaces, x, by rw [h]; simp, hx⟩
  | cons y rest =>
    exact .inl ⟨List.cons_ne_nil _ _, label' ++ spaces, x, y, rest, by rw [h]; simp, hx, hrest y rfl⟩

/-- The `=` that a line splits at before the end of a longer label is in that label. -/
theorem Splits.of_shorter {line label before after value label' before' after' value' : Text}
    (h : Splits line label before after value) (hlast : ∀ u ∈ label.getLast?, isSpace u = false)
    (h' : Splits line label' before' after' value') (hlt : label'.length < label.length) :
    ∃ rest, label = label' ++ (before' ++ equals :: rest) ∧
      after' ++ value' = rest ++ (before ++ equals :: (after ++ value)) ∧
      (rest ≠ [] ∧ HoldsSeparator label ∨ rest = [] ∧ EndsInSeparator label) := by
  have hequals : isSpace equals = false := by decide
  obtain ⟨m, rfl⟩ : label' <+: label :=
    List.prefix_of_prefix_length_le ⟨_, h'.eq.symm⟩ ⟨_, h.eq.symm⟩ hlt.le
  have hm : m ≠ [] := by
    rintro rfl
    simp at hlt
  have hrest : before' ++ equals :: (after' ++ value') = m ++ (before ++ equals :: (after ++ value)) := by
    have heq := h'.eq.symm.trans h.eq
    rwa [List.append_assoc, List.append_cancel_left_eq] at heq
  rcases List.append_eq_append_iff.1 hrest with ⟨m', hm', hafter⟩ | ⟨b, hb, hafter⟩
  · cases m' with
    | nil =>
      -- The `=` would be one of the spaces before the separator's.
      obtain ⟨u, before, rfl⟩ := List.exists_cons_of_ne_nil h.before.1
      obtain ⟨rfl, -⟩ := List.cons.inj hafter
      rw [h.before.2 _ List.mem_cons_self] at hequals
      cases hequals
    | cons e rest =>
      obtain ⟨rfl, hvalue⟩ := List.cons.inj hafter
      refine ⟨rest, by rw [hm'], hvalue, holds_or_ends (by rw [hm']) h'.before ?_⟩
      intro u hu
      obtain ⟨y, after', rfl⟩ := List.exists_cons_of_ne_nil h'.after.1
      obtain ⟨rest, rfl⟩ := List.head?_eq_some_iff.1 hu
      obtain ⟨rfl, -⟩ := List.cons.inj hvalue
      exact h'.after.2 _ List.mem_cons_self
  · -- Otherwise the label would end in a space.
    have hlastM := hlast (m.getLast hm) (by
      rw [List.getLast?_append, List.getLast?_eq_some_getLast hm, Option.some_or]; rfl)
    have hspace := h'.before.2 (m.getLast hm) (by rw [hb]; exact List.mem_append_left _ (List.getLast_mem hm))
    rw [hlastM] at hspace
    cases hspace

/-- A separator inside a label splits the line there, where all that follows is on one line. -/
theorem HoldsSeparator.splits {label rest : Text} (h : HoldsSeparator label) (hlabel : OneLine label)
    (hrest : OneLine rest) :
    ∃ label' before after value, Splits (label ++ rest) label' before after value ∧
      label'.length < label.length := by
  obtain ⟨a, x, y, b, rfl, hx, hy⟩ := h
  refine ⟨a, [x], [y], b ++ rest, ⟨by simp, ⟨nofun, ?_⟩, ⟨nofun, ?_⟩, ?_, ?_⟩, by simp⟩
  · simpa using hx
  · simpa using hy
  · exact fun u hu => hlabel u (List.mem_append_left _ hu)
  · intro u hu
    rcases List.mem_append.1 hu with hu | hu
    · exact hlabel u (by simp [hu])
    · exact hrest u hu

/-- An `=` that ends a label splits the line at the spaces that follow the label. -/
theorem EndsInSeparator.splits {label before rest : Text} (h : EndsInSeparator label)
    (hlabel : OneLine label) (hbefore : Spaces before) (hrest : OneLine rest) :
    ∃ label' before' after value, Splits (label ++ (before ++ rest)) label' before' after value ∧
      label'.length < label.length := by
  obtain ⟨a, x, rfl, hx⟩ := h
  refine ⟨a, [x], before, rest, ⟨by simp, ⟨nofun, ?_⟩, hbefore, ?_, hrest⟩, by simp⟩
  · simpa using hx
  · exact fun u hu => hlabel u (List.mem_append_left _ hu)

/-- An option's line is read as the option: its label isn't split, or is told from its value. -/
def FilterOption.Readable (o : FilterOption) : Prop :=
  if o.label = o.value then ∀ label before after value, ¬ Splits o.label label before after value
  else OneLine o.label ∧ OneLine o.value ∧ ¬ HoldsSeparator o.label ∧ ¬ EndsInSeparator o.label

/-- An option's line is read back when the option is readable. -/
theorem optionOfLine_lineOfOption_iff {o : FilterOption} (h : o.OnOneLine) :
    optionOfLine (lineOfOption o) = o ↔ o.Readable := by
  obtain ⟨label, value⟩ := o
  by_cases heq : label = value
  · subst heq
    rw [lineOfOption, if_pos rfl, FilterOption.Readable, if_pos rfl, ← labelledOption_eq_none_iff]
    constructor
    · intro hread
      rw [Option.eq_none_iff_forall_not_mem]
      rintro ⟨label', value'⟩ hsome
      rw [optionOfLine, hsome] at hread
      obtain ⟨rfl, rfl⟩ := FilterOption.mk.inj hread
      -- The label would be longer than itself.
      obtain ⟨⟨before, after, hsplits⟩, -⟩ := labelledOption_eq_some_iff.1 hsome
      have hlength := congrArg List.length hsplits.eq
      simp at hlength
    · intro hnone
      rw [optionOfLine, hnone]
  · have hspaces : Spaces [space] := ⟨nofun, List.forall_mem_singleton.2 rfl⟩
    have hline : lineOfOption ⟨label, value⟩ = label ++ ([space] ++ equals :: ([space] ++ value)) := by
      rw [lineOfOption, if_neg heq]
      simp
    rw [hline, FilterOption.Readable, if_neg heq]
    constructor
    · intro hread
      have hsome : labelledOption (label ++ ([space] ++ equals :: ([space] ++ value))) =
          some (label, value) := by
        rw [optionOfLine] at hread
        split at hread
        case h_1 label' value' hsome =>
          obtain ⟨rfl, rfl⟩ := FilterOption.mk.inj hread
          exact hsome
        case h_2 => exact absurd ((FilterOption.mk.inj hread).1.symm.trans (FilterOption.mk.inj hread).2) heq
      obtain ⟨⟨before, after, hsplits⟩, -, hshortest⟩ := labelledOption_eq_some_iff.1 hsome
      have hrest : OneLine (equals :: ([space] ++ value)) := by
        have hchars : endsLine equals = false ∧ endsLine space = false := by decide
        simp only [OneLine, List.mem_cons, List.singleton_append, forall_eq_or_imp]
        exact ⟨hchars.1, hchars.2, hsplits.value⟩
      refine ⟨hsplits.label, hsplits.value, fun hholds => ?_, fun hends => ?_⟩
      · have hspace : OneLine ([space] ++ equals :: ([space] ++ value)) :=
          List.forall_mem_cons.2 ⟨by decide, hrest⟩
        obtain ⟨label', before', after', value', hsplits', hlt⟩ := hholds.splits hsplits.label hspace
        exact absurd (hshortest _ _ _ _ hsplits') (Nat.not_le_of_lt hlt)
      · obtain ⟨label', before', after', value', hsplits', hlt⟩ := hends.splits hsplits.label hspaces hrest
        exact absurd (hshortest _ _ _ _ hsplits') (Nat.not_le_of_lt hlt)
    · rintro ⟨hlabel, hvalue, hholds, hends⟩
      have hsplits : Splits (label ++ ([space] ++ equals :: ([space] ++ value))) label [space] [space] value :=
        ⟨rfl, hspaces, hspaces, hlabel, hvalue⟩
      have hsome := labelledOption_eq_some_iff.2 ⟨⟨_, _, hsplits⟩, h.value.first, ?_⟩
      · rw [optionOfLine, hsome]
      · intro label' before' after' value' hsplits'
        by_contra hlt
        obtain ⟨rest, -, -, ⟨-, hh⟩ | ⟨-, he⟩⟩ :=
          hsplits.of_shorter h.label.last hsplits' (Nat.lt_of_not_le hlt)
        · exact hholds hh
        · exact hends he

end Reading

section Rewriting

/-- A line whose option isn't read back from the line written for it: a line terminator kept the
separator that its label holds or ends in from splitting it, and the one written has none. -/
def Torn (line : Text) : Prop :=
  ∃ label before after value, Splits line label before after value ∧
    (∀ u ∈ label.getLast?, isSpace u = false) ∧ (∀ u ∈ value.head?, isSpace u = false) ∧
    (EndsInSeparator label → ¬ OneLine after) ∧
    (HoldsSeparator label ∧ ¬ OneLine (before ++ after) ∨ EndsInSeparator label ∧ label ≠ value)

variable {line label before after value : Text}

/-- What a label holds when its line splits at its end. -/
theorem Splits.of_labelledOption (hsome : labelledOption line = some (label, value))
    (h : Splits line label before after value) :
    (∀ u ∈ label.getLast?, isSpace u = false) ∧
      (HoldsSeparator label → ¬ OneLine (before ++ after)) ∧ (EndsInSeparator label → ¬ OneLine after) := by
  obtain ⟨-, -, hshortest⟩ := labelledOption_eq_some_iff.1 hsome
  have hequals : endsLine equals = false := by decide
  refine ⟨?_, fun hholds hline => ?_, fun hends hline => ?_⟩
  · intro u hu
    obtain ⟨shorter, rfl⟩ := List.getLast?_eq_some_iff.1 hu
    by_contra hspace
    have hshorter : Splits line shorter (u :: before) after value := by
      refine ⟨by rw [h.eq]; simp, ⟨nofun, ?_⟩, h.after, ?_, h.value⟩
      · exact List.forall_mem_cons.2 ⟨by simpa using hspace, h.before.2⟩
      · exact fun c hc => h.label c (List.mem_append_left _ hc)
    have hle := hshortest _ _ _ _ hshorter
    rw [List.length_append, List.length_singleton] at hle
    omega
  · have hrest : OneLine (before ++ equals :: (after ++ value)) := by
      intro u hu
      rw [List.mem_append, List.mem_cons, List.mem_append] at hu
      rcases hu with hu | rfl | hu | hu
      · exact hline u (List.mem_append_left _ hu)
      · exact hequals
      · exact hline u (List.mem_append_right _ hu)
      · exact h.value u hu
    obtain ⟨label', before', after', value', h', hlt⟩ := hholds.splits h.label hrest
    rw [← h.eq] at h'
    exact absurd (hshortest _ _ _ _ h') (Nat.not_le_of_lt hlt)
  · have hrest : OneLine (equals :: (after ++ value)) := by
      intro u hu
      rw [List.mem_cons, List.mem_append] at hu
      rcases hu with rfl | hu | hu
      · exact hequals
      · exact hline u hu
      · exact h.value u hu
    obtain ⟨label', before', after', value', h', hlt⟩ := hends.splits h.label h.before hrest
    rw [← h.eq] at h'
    exact absurd (hshortest _ _ _ _ h') (Nat.not_le_of_lt hlt)

/-- A line splits at the end of a label where each separator that the label holds or ends in has a line
terminator after it. -/
theorem Splits.labelledOption (h : Splits line label before after value)
    (hlast : ∀ u ∈ label.getLast?, isSpace u = false) (hfirst : ∀ u ∈ value.head?, isSpace u = false)
    (hholds : HoldsSeparator label → ¬ OneLine (before ++ after))
    (hends : EndsInSeparator label → ¬ OneLine after) : labelledOption line = some (label, value) := by
  refine labelledOption_eq_some_iff.2 ⟨⟨before, after, h⟩, hfirst, ?_⟩
  intro label' before' after' value' h'
  by_contra hlt
  obtain ⟨rest, hrest, hafter, hcase⟩ := h.of_shorter hlast h' (Nat.lt_of_not_le hlt)
  -- The separator's spaces don't hold an `=`, nor the last of the label when that follows it.
  have hequals : equals ∉ after' := fun hmem => by
    have hspace := h'.after.2 equals hmem
    revert hspace
    decide
  rcases hcase with ⟨hne, hh⟩ | ⟨rfl, he⟩
  · obtain ⟨m, hm⟩ : ∃ m, value' = m ++ (before ++ equals :: (after ++ value)) := by
      rcases List.append_eq_append_iff.1 hafter with ⟨m, -, hm⟩ | ⟨m, rfl, hm⟩
      · exact ⟨m, hm⟩
      · -- The rest's last is the label's, which is no space.
        have hmem := List.getLast_mem hne
        have hspace := h'.after.2 _ (List.mem_append_left m hmem)
        have hnot := hlast (rest.getLast hne) (by
          rw [hrest, ← List.append_assoc, List.getLast?_append, List.getLast?_cons,
            List.getLast?_eq_some_getLast hne]
          rfl)
        rw [hnot] at hspace
        cases hspace
    apply hholds hh
    intro u hu
    apply h'.value u
    rw [hm]
    rcases List.mem_append.1 hu with hu | hu <;> simp [hu]
  · rw [List.nil_append] at hafter
    obtain ⟨m, hm⟩ : ∃ m, value' = m ++ equals :: (after ++ value) := by
      rcases List.append_eq_append_iff.1 hafter with ⟨m, -, hm⟩ | ⟨m, rfl, hm⟩
      · exact ⟨m, hm⟩
      · cases m with
        | nil => exact ⟨[], hm.symm⟩
        | cons e m =>
          obtain ⟨rfl, -⟩ := List.cons.inj hm
          exact absurd (by simp) hequals
    apply hends he
    intro u hu
    apply h'.value u
    rw [hm]
    simp [hu]

/-- A line's option is on one line. -/
theorem onOneLine_optionOfLine (h : Trimmed line) (hline : newline ∉ line) : (optionOfLine line).OnOneLine := by
  rw [optionOfLine]
  split
  case h_2 => exact ⟨h.ne, h.ne, h.trim, h.trim, hline, hline⟩
  case h_1 label value hsome =>
    obtain ⟨⟨before, after, hsplits⟩, hfirst, -⟩ := labelledOption_eq_some_iff.1 hsome
    obtain ⟨hlast, -⟩ := hsplits.of_labelledOption hsome
    have hlabel : label ≠ [] := by
      rintro rfl
      obtain ⟨u, before, rfl⟩ := List.exists_cons_of_ne_nil hsplits.before.1
      have hspace := hsplits.before.2 u List.mem_cons_self
      rw [h.first u (by rw [hsplits.eq]; rfl)] at hspace
      cases hspace
    have hvalue : value ≠ [] := by
      rintro rfl
      obtain ⟨spaces, u, rfl⟩ := List.eq_nil_or_concat after |>.resolve_left hsplits.after.1
      have hspace := hsplits.after.2 u (by simp)
      have hmem : u ∈ line.getLast? := List.getLast?_eq_some_iff.2 ⟨label ++ (before ++ equals :: spaces),
        hsplits.eq.trans (by simp)⟩
      rw [h.last u hmem] at hspace
      cases hspace
    have htrimmed : Trimmed label := by
      refine ⟨hlabel, fun u hu => h.first u ?_, hlast⟩
      rw [hsplits.eq, List.head?_append, Option.mem_def.1 hu, Option.some_or]
      rfl
    have htrimmed' : Trimmed value := by
      refine ⟨hvalue, hfirst, fun u hu => h.last u ?_⟩
      obtain ⟨rest, rfl⟩ := List.getLast?_eq_some_iff.1 hu
      exact List.getLast?_eq_some_iff.2 ⟨label ++ (before ++ equals :: (after ++ rest)),
        hsplits.eq.trans (by simp)⟩
    refine ⟨hlabel, hvalue, htrimmed.trim, htrimmed'.trim, fun hmem => hline ?_, fun hmem => hline ?_⟩
    · rw [hsplits.eq]
      simp [hmem]
    · rw [hsplits.eq]
      simp [hmem]

/-- A text on one line that splits holds a separator. -/
theorem holdsSeparator_of_splits {text : Text} (h : Splits text label before after value) :
    HoldsSeparator text := by
  obtain ⟨spaces, x, rfl⟩ := List.eq_nil_or_concat before |>.resolve_left h.before.1
  obtain ⟨y, after, rfl⟩ := List.exists_cons_of_ne_nil h.after.1
  refine ⟨label ++ spaces, x, y, after ++ value, ?_, h.before.2 x (by simp), h.after.2 y List.mem_cons_self⟩
  rw [h.eq]
  simp

/-- A line's option is read back from its own line but for a torn one. -/
theorem readable_optionOfLine_iff : (optionOfLine line).Readable ↔ ¬ Torn line := by
  rw [optionOfLine]
  split
  case h_2 hnone =>
    rw [labelledOption_eq_none_iff] at hnone
    rw [FilterOption.Readable, if_pos rfl]
    exact iff_of_true hnone fun ⟨label, before, after, value, h, _⟩ => hnone _ _ _ _ h
  case h_1 label value hsome =>
    obtain ⟨⟨before, after, h⟩, hfirst, -⟩ := labelledOption_eq_some_iff.1 hsome
    obtain ⟨hlast, hholds, hends⟩ := h.of_labelledOption hsome
    have hreadable : (FilterOption.mk label value).Readable ↔
        ¬ HoldsSeparator label ∧ (EndsInSeparator label → label = value) := by
      rw [FilterOption.Readable]
      split
      case isTrue heq =>
        simp only at heq
        constructor
        · intro hsplits
          refine ⟨fun hh => ?_, fun _ => heq⟩
          have hnil : OneLine [] := nofun
          obtain ⟨label', before', after', value', h', -⟩ := hh.splits h.label hnil
          rw [List.append_nil] at h'
          exact hsplits _ _ _ _ h'
        · rintro ⟨hh, -⟩ label' before' after' value' h'
          exact hh (holdsSeparator_of_splits h')
      case isFalse heq =>
        simp only at heq
        constructor
        · rintro ⟨-, -, hh, he⟩
          exact ⟨hh, fun hends => absurd hends he⟩
        · rintro ⟨hh, he⟩
          exact ⟨h.label, h.value, hh, fun hends => heq (he hends)⟩
    rw [hreadable]
    constructor
    · rintro ⟨hh, he⟩ ⟨label', before', after', value', h', hlast', hfirst', hends', hcase⟩
      have hsome' := h'.labelledOption hlast' hfirst' ?_ hends'
      · rw [hsome] at hsome'
        obtain ⟨rfl, rfl⟩ := Prod.mk.inj (Option.some.inj hsome')
        rcases hcase with ⟨hh', -⟩ | ⟨he', hne⟩
        · exact hh hh'
        · exact hne (he he')
      · rintro - hline
        rcases hcase with ⟨-, hnot⟩ | ⟨he', -⟩
        · exact hnot hline
        · exact hends' he' fun u hu => hline u (List.mem_append_right _ hu)
    · intro htorn
      constructor
      · exact fun hh => htorn ⟨label, before, after, value, h, hlast, hfirst, hends, .inl ⟨hh, hholds hh⟩⟩
      · intro he
        by_contra hne
        exact htorn ⟨label, before, after, value, h, hlast, hfirst, hends, .inr ⟨he, hne⟩⟩

end Rewriting

section Editing

/-- Options are read back when each is told from its line. -/
theorem optionsOfText_textOfOptions_eq_iff {items : List FilterOption} (h : ∀ o ∈ items, o.OnOneLine) :
    optionsOfText (textOfOptions items) = items ↔ ∀ o ∈ items, o.Readable := by
  rw [optionsOfText_textOfOptions_iff h]
  exact forall₂_congr fun o ho => optionOfLine_lineOfOption_iff (h o ho)

/-- Options survive the editor when each is told from its line; a text's options do but for those of torn
lines. -/
theorem optionsOfText_survive (items : List FilterOption) (text : Text) (h : ∀ o ∈ items, o.OnOneLine) :
    (optionsOfText (textOfOptions items) = items ↔ ∀ o ∈ items, o.Readable) ∧
      (optionsOfText (textOfOptions (optionsOfText text)) = optionsOfText text ↔
        ∀ line ∈ linesOf text, ¬ Torn line) := by
  refine ⟨optionsOfText_textOfOptions_eq_iff h, ?_⟩
  rw [optionsOfText_textOfOptions_eq_iff, optionsOfText, List.forall_mem_map]
  · exact forall₂_congr fun line _ => readable_optionOfLine_iff
  · intro o ho
    obtain ⟨line, hline, rfl⟩ := List.mem_map.1 ho
    obtain ⟨htrimmed, hnewline⟩ := trimmed_of_mem_linesOf hline
    exact onOneLine_optionOfLine htrimmed hnewline

/-- The options `w` and `W = w`. -/
theorem optionsOfText_survive_warn :
    let items : List FilterOption := [⟨[119], [119]⟩, ⟨[87], [119]⟩]
    optionsOfText (textOfOptions items) = items := by
  refine (optionsOfText_survive _ [] ?_).1.2 ?_
  · simp only [List.forall_mem_cons]
    exact ⟨⟨by decide, by decide, by decide, by decide, by decide, by decide⟩,
      ⟨by decide, by decide, by decide, by decide, by decide, by decide⟩, nofun⟩
  · simp only [List.forall_mem_cons]
    refine ⟨?_, ?_, nofun⟩
    · rw [FilterOption.Readable, if_pos rfl]
      exact labelledOption_eq_none_iff.1 (by decide)
    · have hequals : equals ∉ ([87] : Text) := by decide
      rw [FilterOption.Readable, if_neg (by decide)]
      refine ⟨List.forall_mem_singleton.2 rfl, List.forall_mem_singleton.2 rfl, ?_, ?_⟩
      · rintro ⟨a, x, y, b, h, -, -⟩
        simp only at h
        exact hequals (by rw [h]; simp)
      · rintro ⟨a, x, h, -⟩
        simp only at h
        exact hequals (by rw [h]; simp)

/-- A label that is its value and holds ` = ` is split there. -/
theorem not_forall_optionsOfText_survive :
    ¬ ((∀ items : List FilterOption, (∀ o ∈ items, o.OnOneLine) →
        optionsOfText (textOfOptions items) = items) ∧
      ∀ text, optionsOfText (textOfOptions (optionsOfText text)) = optionsOfText text) := by
  rintro ⟨hitems, -⟩
  let text : Text := [97, 32, 61, 32, 98]
  have hline : ∀ o ∈ [FilterOption.mk text text], o.OnOneLine := by
    intro o ho
    obtain rfl := List.mem_singleton.1 ho
    exact ⟨by decide, by decide, by decide, by decide, by decide, by decide⟩
  exact absurd (hitems _ hline) (by decide)

end Editing

end SolidTrace.Dashboards
