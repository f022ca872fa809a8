import SolidTrace.LogQuery.Edited
import SolidTrace.LogQuery.Narrow
import SolidTrace.LogQuery.ReadScope

/-!
# A Query on one file

The event store reads one file's Logs by a Query's text with a filter on the file put first, after the
Query's source if it has one.
-/

namespace SolidTrace.LogQuery

open Scanner

section Text

/-- The stage that keeps a file's Logs. -/
def fileFilter (file : String) : String := "where file == " ++ quote file

/-- A Query's text with a `where file == "<file>"` first, after its leading source if it has one. -/
def onFile (abc : Alphabet) (text file : String) : String :=
  match (parse abc text).toOption.bind Syntax.Query.source with
  | some source =>
    -- The source's span is all of it: logs, or ['slug'].
    let stop := source.span.stop.toNat
    Utf8.slice text 0 stop ++ " | " ++ fileFilter file ++ Utf8.slice text stop (runes text).size
  | none =>
    let rest := Text.string (trimSpace (runes text))
    if rest = "" then fileFilter file
    else if rest.toList.head? = some '|' then fileFilter file ++ " " ++ rest
    else fileFilter file ++ " | " ++ rest

/-- The stage, its tokens at some places. -/
def fileStage (file : String) (pipe : Span) (at' : ℕ → Span) : Syntax.Stage :=
  .whereStage pipe (at' 0) (.binary (.ident ⟨"file", at' 1, false⟩) (at' 2) .eq (.basicLit ⟨at' 3, .string, file⟩))

def fileTokens (file : String) (at' : ℕ → Span) : List Token :=
  [⟨.identifier, at' 0, "where"⟩, ⟨.identifier, at' 1, "file"⟩, ⟨.eq, at' 2, ""⟩, ⟨.string, at' 3, file⟩]

/-- The stage for a file is spelled by its tokens. -/
theorem spells_fileStage (src : Source) (file : String) (pipe : Span) (at' : ℕ → Span) :
    spellsStage src (fileStage file pipe at') (fileTokens file at') := by
  have hfile : spells src (.ident ⟨"file", at' 1, false⟩) [⟨.identifier, at' 1, "file"⟩] := by
    simp only [spells, spellsIdent, Bool.false_eq_true, if_false]
    have hown : "file" ≠ "true" ∧ "file" ≠ "false" ∧ "file" ≠ "not" := by decide
    exact ⟨_, [], rfl, rfl, .none _ _, fun _ => hown⟩
  have hwell : wellFormed (.binary (.ident ⟨"file", at' 1, false⟩) (at' 2) .eq
      (.basicLit ⟨at' 3, .string, file⟩)) 0 :=
    ⟨Nat.zero_le _, trivial, fun last hlast => by simp [lastOperator] at hlast, trivial⟩
  exact ⟨_, rfl, hwell, [_], [_], [_], rfl, hfile, .symbol rfl _ _, rfl⟩

end Text

section Reading

variable {abc : Alphabet}

/-- An equality is one token before anything. -/
theorem isToken_eq (rest : Text) : IsToken abc .eq "" rest (runes "==") := by
  have hstart : isIdentStart abc '=' = false := by
    simp [isIdentStart, abc.ascii '=' (by decide)]
  refine ⟨by decide, rfl, ?_, by simp⟩
  change token abc (.char '=') (.char '=' :: rest) = _
  simp [token, Rune.value, hstart, Scanner.isDigit, isQuote, symbol, symbols, afterPrefix_cons, afterPrefix_nil]

/-- The filter is read as its tokens. -/
theorem fileFilter_reads (file : String) (start : ℕ) (rest : Text) :
    ∃ at', ScansTo abc rest start (runes (fileFilter file)) (fileTokens file at') := by
  obtain ⟨body, hquote, hbody⟩ := quote_written file
  have hstring : IsToken abc .string file ([] ++ rest) (runes (quote file)) := by
    rw [hquote]
    exact isToken_string hbody rest
  have hspace : Gap (runes " ") := Gap.space (r := .char ' ') rfl
  have hcut : ∀ text, CutOff (runes " " ++ text) := by
    intro text r hr
    obtain rfl : Rune.char ' ' = r := Option.some_inj.1 hr
    decide
  have hparts : runes (fileFilter file) = [] ++ (runes "where" ++ (runes " " ++ (runes "file" ++
      (runes " " ++ (runes "==" ++ (runes " " ++ (runes (quote file) ++ []))))))) := by
    have hwords : runes "where file == " = runes "where" ++ (runes " " ++ (runes "file" ++
        (runes " " ++ (runes "==" ++ runes " ")))) := by decide
    simp only [fileFilter, runes_append, hwords, List.append_assoc, List.nil_append, List.append_nil]
  have hword : ∀ value ∈ ["where", "file"], (Piece.word value).isOne = true := by decide
  obtain ⟨ts, hreads, hts⟩ : ∃ ts, ScansTo abc rest start (runes (fileFilter file)) ts ∧
      ts.map (fun tok => (tok.kind, tok.value)) =
        [(.identifier, "where"), (.identifier, "file"), (.eq, ""), (.string, file)] := by
    rw [hparts]
    refine ⟨_, .cons Gap.nil (isToken_word (hword _ (by simp)) ?_) (.cons hspace
      (isToken_word (hword _ (by simp)) ?_) (.cons hspace (isToken_eq _) (.cons hspace hstring .nil))), rfl⟩
    · rw [List.append_assoc]
      exact hcut _
    · rw [List.append_assoc]
      exact hcut _
  obtain ⟨at', rfl⟩ := exists_places hts
  exact ⟨at', by simpa [fileTokens] using hreads⟩

end Reading

section Pipes

variable {src : Source}

/-- After a stage and what ends with no pipe there is no pipe. -/
theorem stage_last {s : Syntax.Stage} {us vs : List Token} (hs : spellsStage src s us)
    (hvs : ∀ tok ∈ vs.getLast?, tok.kind ≠ .pipe) : ∀ tok ∈ (us ++ vs).getLast?, tok.kind ≠ .pipe := by
  intro tok htok hpipe
  rw [List.getLast?_append, Option.mem_def, Option.or_eq_some_iff] at htok
  rcases htok with hlast | ⟨-, hlast⟩
  · exact hvs tok hlast hpipe
  · have hkind := spellsStage_inStage hs tok (List.mem_of_getLast? hlast)
    simp [inStage, hpipe] at hkind

/-- Stages do not end in a pipe. -/
theorem spellsPiped_last {stages : List Syntax.Stage} {ts : List Token} (h : spellsPiped src stages ts) :
    ∀ tok ∈ ts.getLast?, tok.kind ≠ .pipe := by
  induction stages generalizing ts with
  | nil =>
    cases h
    exact nofun
  | cons s rest ih =>
    obtain ⟨value, us, vs, rfl, hs, hrest⟩ := h
    have hlast := stage_last hs (ih hrest)
    obtain ⟨span, word, us, rfl, -⟩ := spellsStage_word hs
    rwa [List.cons_append, List.getLast?_cons_cons]

/-- A Query's text ends with no pipe. -/
theorem spellsQuery_last {tree : Syntax.Query} {ts : List Token} (h : spellsQuery src tree ts) :
    ∀ tok ∈ ts.getLast?, tok.kind ≠ .pipe := by
  obtain ⟨source, stages⟩ := tree
  cases source with
  | some id =>
    obtain ⟨-, kind, us, rfl, hkind, hstages⟩ := h
    have hlast := spellsPiped_last hstages
    cases us with
    | nil =>
      intro tok htok
      obtain rfl : _ = tok := by simpa using htok
      rcases hkind with ⟨rfl, -⟩ | rfl <;> simp
    | cons tok us => rwa [List.getLast?_cons_cons]
  | none =>
    cases stages with
    | nil =>
      cases h
      exact nofun
    | cons s rest =>
      obtain ⟨-, us, vs, rfl, hs, hrest⟩ := h
      exact stage_last hs (spellsPiped_last hrest)

end Pipes

section Parsing

/-- A text that starts with a pipe has it for its first rune. -/
theorem runes_of_head {text : String} (h : text.toList.head? = some '|') :
    ∃ rest, runes text = runes "|" ++ rest := by
  obtain ⟨cs, hcs⟩ := List.head?_eq_some_iff.1 h
  exact ⟨cs.map .char, by rw [runes, hcs]; rfl⟩

/-- The pipe between two stages stands alone. -/
theorem runes_pipe_between : runes " | " = runes " " ++ runes "|" ++ runes " " := by decide

variable {abc : Alphabet} {text : String} {tree : Syntax.Query}

/-- A tree that is another one's with the filter first, the stages at other places. -/
structure WithFile (file : String) (tree tree' : Syntax.Query) : Prop where
  source : tree'.source.map Syntax.Ident.name = tree.source.map Syntax.Ident.name
  stages : ∃ pipe at' stages, tree'.stages = fileStage file pipe at' :: stages ∧
    List.Forall₂ Syntax.Stage.MovesTo tree.stages stages

/-- The stage for a file is put after a source. -/
theorem onFile_of_source {pre post : String} {source : Syntax.Ident} (h : parse abc (pre ++ post) = .ok tree)
    (hsource : tree.source = some source) (hstop : source.span.stop = ((runes pre).size : ℕ)) (file : String) :
    onFile abc (pre ++ post) file = pre ++ " | " ++ fileFilter file ++ post := by
  unfold onFile
  rw [h]
  simp only [Except.toOption, Option.bind_some, hsource, hstop, Int.toNat_natCast, ← length_bytes,
    Utf8.slice_before, Utf8.slice_after]

/-- The stage for a file is put first where there is no source. -/
theorem onFile_of_bare (h : parse abc text = .ok tree) (hsource : tree.source = none) (file : String) :
    onFile abc text file =
      if Text.string (trimSpace (runes text)) = "" then fileFilter file
      else if (Text.string (trimSpace (runes text))).toList.head? = some '|' then
        fileFilter file ++ " " ++ Text.string (trimSpace (runes text))
      else fileFilter file ++ " | " ++ Text.string (trimSpace (runes text)) := by
  unfold onFile
  rw [h]
  simp only [Except.toOption, Option.bind_some, hsource]

/-- After a source. -/
theorem parse_onFile_source (h : parse abc text = .ok tree) {source : Syntax.Ident}
    (hsource : tree.source = some source) (file : String) :
    ∃ tree', parse abc (onFile abc text file) = .ok tree' ∧ WithFile file tree tree' := by
  obtain ⟨ts, hspells, htokens⟩ := parse_eq_ok_iff.1 h
  obtain ⟨_, stages⟩ := tree
  obtain rfl : _ = some source := hsource
  obtain ⟨hquoted, kind, us, rfl, hkind, hstages⟩ := hspells
  obtain ⟨a, b, htext, ha, hb⟩ := @TokensOf.split abc 0 _ [⟨kind, source.span, source.name⟩] us htokens
  obtain ⟨pre, post, rfl, rfl, rfl⟩ := exists_of_runes_append htext
  rw [Nat.zero_add] at hb
  have hstop : source.span.stop = ((runes pre).size : ℕ) := by
    simpa using ha.last_stop _ rfl
  have htext' := onFile_of_source h rfl hstop file
  -- The stages' tokens stand after the filter.
  have hplace : (runes (pre ++ " | " ++ fileFilter file)).size =
      (runes pre).size + (runes " | ").size + (runes (fileFilter file)).size := by
    simp only [runes_append, Text.size_append]
  obtain ⟨at', hfilter⟩ := @fileFilter_reads abc file ((runes pre).size + (runes " | ").size) (runes post)
  have hrest := hb.shift (runes (pre ++ " | " ++ fileFilter file)).size
  generalize hd : (((runes (pre ++ " | " ++ fileFilter file)).size : ℤ) - (runes pre).size) = d at hrest
  rw [hplace] at hrest
  obtain ⟨pipe, hpiped⟩ := TokensOf.piped (runes " ") (runes " ") (by decide) (by decide)
    (TokensOf.append hfilter hrest)
  have hsource := ha.before_pipe (runes " ") (runes " " ++ (runes (fileFilter file) ++ runes post)) (by decide)
  have hcopied : CopiedTo ⟨pre ++ post, abc.quote⟩ ⟨onFile abc (pre ++ post) file, abc.quote⟩ d us := by
    rw [← hd]
    exact @CopiedTo.of_part abc _ _ pre post "" (pre ++ " | " ++ fileFilter file) "" us (by simp) (by simp [htext']) hb
  refine ⟨⟨some source, fileStage file pipe at' :: stages.map (Syntax.Stage.shift d)⟩, parse_eq_ok_iff.2 ⟨_,
    ⟨hquoted, kind, _, rfl, hkind, "", _, _, rfl, spells_fileStage _ _ _ _, spellsPiped_shift hcopied hstages⟩,
    ?_⟩, rfl, _, _, _, rfl, forall₂_movesTo_shift stages⟩
  have hparts : runes (onFile abc (pre ++ post) file) =
      runes pre ++ (runes " " ++ runes "|" ++ (runes " " ++ (runes (fileFilter file) ++ runes post))) := by
    simp only [htext', runes_append, runes_pipe_between, List.append_assoc]
  rw [hparts]
  refine TokensOf.append hsource ?_
  rw [Nat.zero_add, ← List.append_assoc]
  exact hpiped

/-- Without one, before the first stage. -/
theorem parse_onFile_stages (h : parse abc text = .ok tree) (hsource : tree.source = none)
    (hne : tree.stages ≠ []) (file : String) :
    ∃ tree', parse abc (onFile abc text file) = .ok tree' ∧ WithFile file tree tree' := by
  obtain ⟨ts, hspells, htokens⟩ := parse_eq_ok_iff.1 h
  have htext' := onFile_of_bare h hsource file
  obtain ⟨_, stages⟩ := tree
  obtain rfl : _ = none := hsource
  obtain ⟨s, rest, rfl⟩ := List.exists_cons_of_ne_nil hne
  obtain ⟨hnull, us, vs, rfl, hs, hrest⟩ := hspells
  obtain ⟨before, after, htrim, hbefore, hafter⟩ := trimSpace_parts (runes text)
  rw [List.append_assoc] at htrim
  obtain ⟨pre, _, rfl, rfl, hpost⟩ := exists_of_runes_append htrim
  obtain ⟨part, post, rfl, hpart, rfl⟩ := exists_of_runes_append hpost
  rw [← hpart, string_runes] at htext'
  rw [runes_append, runes_append] at htokens
  have hread := ((tokensOf_spaces hbefore).1 htokens).of_spaces_after hafter
  rw [Nat.zero_add] at hread
  obtain ⟨span, word, us', hus, -⟩ := spellsStage_word hs
  have hempty : part ≠ "" := by
    rintro rfl
    obtain ⟨a, _, hnil, -, hreads⟩ := hread
    have hts := hreads.eq_nil (List.append_eq_nil_iff.1 hnil.symm).1
    simp [hus] at hts
  have hpipe : part.toList.head? ≠ some '|' := fun hhead => by
    obtain ⟨text, hpart⟩ := runes_of_head hhead
    rw [hpart] at hread
    obtain ⟨_, _, hts⟩ := hread.starts_with_pipe
    simp [hus] at hts
  rw [if_neg hempty, if_neg hpipe] at htext'
  -- The stages' tokens stand after the filter.
  have hshifted := hread.shift (runes (fileFilter file ++ " | ")).size
  have hplace : (runes (fileFilter file ++ " | ")).size =
      0 + (runes (fileFilter file)).size + (runes " " ++ runes "|" ++ runes " ").size := by
    rw [runes_append, runes_pipe_between, Text.size_append, Nat.zero_add]
  generalize hd : (((runes (fileFilter file ++ " | ")).size : ℤ) - (runes pre).size) = d at hshifted
  rw [hplace] at hshifted
  obtain ⟨pipe, hpiped⟩ := TokensOf.piped (runes " ") (runes " ") (by decide) (by decide) hshifted
  obtain ⟨at', hfilter⟩ := @fileFilter_reads abc file 0 (runes " " ++ runes "|" ++ runes " " ++ runes part)
  have hcopied : CopiedTo ⟨pre ++ (part ++ post), abc.quote⟩ ⟨onFile abc (pre ++ (part ++ post)) file, abc.quote⟩ d
      (us ++ vs) := by
    rw [← hd]
    exact @CopiedTo.of_part abc _ _ pre part post (fileFilter file ++ " | ") "" _ (by simp [String.append_assoc])
      (by simp [htext']) hread
  have hfirst := spellsStage_shift pipe hcopied.append.1 hs
  rw [List.map_append] at hpiped
  refine ⟨⟨none, fileStage file .null at' :: s.moved (Span.shift d) pipe :: rest.map (Syntax.Stage.shift d)⟩,
    parse_eq_ok_iff.2 ⟨_, ⟨rfl, _, _, rfl, spells_fileStage _ _ _ _, "", _, _, rfl, hfirst,
      spellsPiped_shift hcopied.append.2 hrest⟩, ?_⟩, rfl, _, _, _, rfl, .cons ⟨_, _, rfl⟩ (forall₂_movesTo_shift rest)⟩
  rw [Syntax.Stage.pipe_moved]
  have hparts : runes (onFile abc (pre ++ (part ++ post)) file) =
      runes (fileFilter file) ++ (runes " " ++ runes "|" ++ runes " " ++ runes part) := by
    simp only [htext', runes_append, runes_pipe_between, List.append_assoc]
  rw [hparts]
  exact TokensOf.append hfilter hpiped

/-- With neither, alone. -/
theorem parse_onFile_spaces (h : parse abc text = .ok ⟨none, []⟩)
    (hspaces : ∀ r ∈ runes text, isSpace r.value = true) (file : String) :
    ∃ tree', parse abc (onFile abc text file) = .ok tree' ∧ WithFile file ⟨none, []⟩ tree' := by
  have hempty : trimSpace (runes text) = [] := by
    rw [trimSpace, List.dropWhile_eq_nil_iff.2 hspaces]
    rfl
  have htext' : onFile abc text file = fileFilter file := by
    rw [onFile_of_bare h rfl, hempty]
    rfl
  obtain ⟨at', hfilter⟩ := @fileFilter_reads abc file 0 []
  rw [htext']
  refine ⟨⟨none, [fileStage file .null at']⟩, parse_eq_ok_iff.2 ⟨fileTokens file at', ⟨rfl, _, [], by simp,
    spells_fileStage _ _ _ _, rfl⟩, ?_⟩, rfl, _, _, _, rfl, .nil⟩
  exact ⟨_, [], by simp, rfl, hfilter⟩

/-- A comment alone leaves the filter's pipe with no stage after it. -/
theorem parse_onFile_comment (h : parse abc text = .ok ⟨none, []⟩)
    (hcomment : ¬ ∀ r ∈ runes text, isSpace r.value = true) (file : String) (tree' : Syntax.Query) :
    parse abc (onFile abc text file) ≠ .ok tree' := by
  have htokens : TokensOf abc 0 (runes text) [] := by
    obtain ⟨ts, hspells, htokens⟩ := parse_eq_ok_iff.1 h
    cases hspells
    exact htokens
  have htext' := onFile_of_bare h rfl file
  obtain ⟨before, after, htrim, hbefore, hafter⟩ := trimSpace_parts (runes text)
  rw [List.append_assoc] at htrim
  obtain ⟨pre, _, rfl, rfl, hpost⟩ := exists_of_runes_append htrim
  obtain ⟨part, post, rfl, hpart, rfl⟩ := exists_of_runes_append hpost
  rw [← hpart, string_runes] at htext'
  rw [runes_append, runes_append] at htokens hcomment
  have hread := ((tokensOf_spaces hbefore).1 htokens).of_spaces_after hafter
  have hempty : part ≠ "" := by
    rintro rfl
    refine hcomment fun r hr => ?_
    rcases List.mem_append.1 hr with hr | hr
    · exact hbefore r hr
    · exact hafter r hr
  have hpipe : part.toList.head? ≠ some '|' := fun hhead => by
    obtain ⟨text, hpart⟩ := runes_of_head hhead
    rw [hpart] at hread
    obtain ⟨_, _, hts⟩ := hread.starts_with_pipe
    cases hts
  rw [if_neg hempty, if_neg hpipe] at htext'
  obtain ⟨at', hfilter⟩ := @fileFilter_reads abc file 0 (runes " " ++ runes "|" ++ runes " " ++ runes part)
  obtain ⟨pipe, hpiped⟩ := @TokensOf.piped abc (0 + (runes (fileFilter file)).size) _ (runes " ")
    (runes " ") _ (by decide) (by decide) (hread.shift _)
  have hparts : runes (onFile abc (pre ++ (part ++ post)) file) =
      runes (fileFilter file) ++ (runes " " ++ runes "|" ++ runes " " ++ runes part) := by
    simp only [htext', runes_append, runes_pipe_between, List.append_assoc]
  intro hparse
  obtain ⟨ts, hspells, hts⟩ := parse_eq_ok_iff.1 hparse
  rw [hparts] at hts
  have hsame : ts = fileTokens file at' ++ [⟨.pipe, pipe, ""⟩] :=
    (scan_iff.2 hts).1.symm.trans (scan_iff.2 (TokensOf.append hfilter hpiped)).1
  exact spellsQuery_last hspells _ (by rw [hsame, List.getLast?_concat]; rfl) rfl

end Parsing

section Compiling

variable {env : Env} {text : String}

/-- The condition that a Log's string Attribute `file` is a name. -/
def fileIs (file : String) : Expr := .compare (.fieldRef "file" false .string) .eq (.literal (.string file))

/-- The stage for a file compiles to its where. -/
theorem run_fileStage (file : String) (pipe : Span) (at' : ℕ → Span) :
    (stage env [] (fileStage file pipe at')).run ⟨[], .logScope, false, [], []⟩ =
      .ok (.whereStage (fileIs file), ⟨[], .logScope, false, [], ["file"]⟩) := rfl

/-- The filter is one more stage of the head. -/
theorem headStages_withFile {file : String} {pipe : Span} {at' : ℕ → Span} {stages stages' : List Syntax.Stage}
    (h : List.Forall₂ Syntax.Stage.MovesTo stages stages') {head : List Stage} {s : CompilerState}
    (hrun : (headStages env stages).run ⟨[], .logScope, false, [], []⟩ = .ok (head, s)) :
    ∃ head' t, (headStages { env with text := text } (fileStage file pipe at' :: stages')).run
      ⟨[], .logScope, false, [], []⟩ = .ok (head', t) ∧
        SameStages (.whereStage (fileIs file) :: head) head' ∧ SameRows "file" s t := by
  have hstart : SameRows "file" ⟨[], .logScope, false, [], []⟩ ⟨[], .logScope, false, [], ["file"]⟩ :=
    ⟨rfl, rfl, rfl, rfl, by simp⟩
  obtain ⟨head', t, hrun', hsame, hst⟩ := (headStages_moved h).exists_ok hstart hrun
  refine ⟨.whereStage (fileIs file) :: head', t, ?_, hsame.cons rfl, hst⟩
  exact (run_bind_of_ok (run_fileStage file pipe at')).trans (run_bind_of_ok hrun')

/-- Narrowing a range does not depend on places. -/
theorem narrow_unplaced (head : List Stage) (range : ℤ × ℤ) :
    narrow (head.map Stage.unplaced) range = narrow head range := by
  have hfold : ∀ {f : ℤ × ℤ → Stage → ℤ × ℤ}, (∀ range s, f range s.unplaced = f range s) →
      (head.map Stage.unplaced).foldl f range = head.foldl f range := by
    intro f hf
    rw [List.foldl_map]
    congr 1
    funext range s
    exact hf range s
  unfold narrow
  rw [hfold]
  rintro range s
  cases s <;> rfl

/-- The filter narrows no range. -/
theorem narrow_fileIs (file : String) (head : List Stage) (range : ℤ × ℤ) :
    narrow (.whereStage (fileIs file) :: head) range = narrow head range := rfl

end Compiling

section Logs

variable {ch : ClickHouse} {lib : Library} {cols : Columns} {row : Sql.Row}

/-- A string Attribute is compared with a text as it is. -/
theorem holds_attributeEquals (hcolumns : ColumnsAgree ch [] row cols.toFields) (name value : String) :
    (writeCondition lib cols.toFields (.compare (.fieldRef name false .string) .eq (.literal (.string value)))
        false).holds ch [] row ↔
      (cols.attributeOf .string name).eval ch [] row = some (.string value) := by
  refine ⟨fun h => holds_textCompare hcolumns (.inl ⟨rfl, rfl⟩) h, fun h => ?_⟩
  have htyp : (Expr.fieldRef name false .string).typ = (Expr.literal (.string value)).typ := rfl
  have hattribute : (writeValue lib cols.toFields (.fieldRef name false .string)).eval ch [] row =
      some (.string value) := by
    rwa [writeValue_fieldRef]
  have hliteral : (writeValue lib cols.toFields (.literal (.string value))).eval ch [] row =
      some (.string value) := by
    simp [writeValue, write, Written.ofValue, writeLiteral, Sql.text, Sql.eval]
  cases hcolumn : stringColumnCompare cols.toFields (.fieldRef name false .string) (.literal (.string value)) with
  | none =>
    have hwritten : writeCondition lib cols.toFields
        (.compare (.fieldRef name false .string) .eq (.literal (.string value))) false =
          .fn .equals [writeValue lib cols.toFields (.fieldRef name false .string),
            writeValue lib cols.toFields (.literal (.string value))] := by
      simp [writeCondition, writeValue, write, Written.ofTest, writeCompare, CompareOp.isEquality, htyp, hcolumn]
    rw [hwritten]
    exact (holds_equals hattribute hliteral).2 ⟨rfl, Option.some_ne_none _⟩
  | some pair =>
    obtain ⟨column, text⟩ := pair
    obtain ⟨name', s, hs, hstring, rfl, hsides⟩ := stringColumnCompare_eq_some hcolumn
    obtain ⟨rfl, rfl⟩ : name' = name ∧ s = value := by simpa [eq_comm] using hsides
    have hwritten : writeCondition lib cols.toFields
        (.compare (.fieldRef name' false .string) .eq (.literal (.string s))) false =
          .fn .equals [column, .text s] := by
      simp [writeCondition, write, Written.ofTest, writeCompare, CompareOp.isEquality, htyp, hcolumn]
    have hread : column.eval ch [] row = some (.string s) := by
      rw [hcolumns _ _ hstring, h]
    have htext : (Sql.text s).eval ch [] row = some (.string s) := by simp [Sql.text, Sql.eval]
    rw [hwritten]
    exact (holds_equals hread htext).2 ⟨rfl, Option.some_ne_none _⟩

end Logs

section Claim

variable {abc : Alphabet} {env : Env} {text : String} {q : Query}

/-- A Query that is another one with one more leading filter, on the Logs' file. A table of Logs shows the
Attributes its Query names, and so the file. -/
structure ReadsFile (lib : Library) (file : String) (q q' : Query) : Prop where
  filters : SameStages (.whereStage (fileIs file) :: q.head) q'.head
  keeps : ∀ ch cols row, ColumnsAgree ch [] row cols.toFields →
    (q'.passesHead ch lib cols row ↔ q.passesHead ch lib cols row ∧
      (cols.attributeOf .string "file").eval ch [] row = some (.string file))
  rest : SameRest "file" q q'

/-- A Query's text on a file compiles, to the Query on the file. -/
def OnFileExact (abc : Alphabet) (env : Env) (text file : String) (q : Query) : Prop :=
  ∃ q', compileText abc env (onFile abc text file) = .ok q' ∧ ReadsFile env.lib file q q' ∧
    sourceName abc (onFile abc text file) = sourceName abc text

/-- A head's condition does not depend on places. -/
theorem headCondition_unplaced {lib : Library} {cols : Columns} (s : Stage) :
    headCondition lib cols s.unplaced = headCondition lib cols s := by
  cases s <;> rfl

/-- Heads that are the same but for places keep the same Logs. -/
theorem passesHead_same {ch : ClickHouse} {lib : Library} {cols : Columns} {row : Sql.Row} {q q' : Query}
    (h : SameStages q.head q'.head) : q.passesHead ch lib cols row ↔ q'.passesHead ch lib cols row := by
  have hconditions := h.map_eq (@headCondition_unplaced lib cols)
  have hall : ∀ q : Query, q.passesHead ch lib cols row ↔
      ∀ c ∈ q.head.map (headCondition lib cols), ∀ w ∈ c, w.holds ch [] row := by
    intro q
    rw [Query.passesHead_iff, List.forall_mem_map]
  rw [hall, hall, hconditions]

/-- A Query that has the same stages after the file's where reads the file's Logs. -/
theorem readsFile_of_same {lib : Library} {file : String} {q q' : Query}
    (hhead : SameStages (.whereStage (fileIs file) :: q.head) q'.head) (hrest : SameRest "file" q q') :
    ReadsFile lib file q q' := by
  refine ⟨hhead, fun ch cols row hcolumns => ?_, hrest⟩
  have hsame := @passesHead_same ch lib cols row { q with head := .whereStage (fileIs file) :: q.head } q' hhead
  rw [← hsame, Query.passesHead_iff, Query.passesHead_iff, List.forall_mem_cons,
    ← @holds_attributeEquals ch lib cols row hcolumns, and_comm]
  simp [headCondition, fileIs]

/-- Where the text on a file parses with the filter first, it compiles so. -/
theorem compile_withFile {tree tree' : Syntax.Query} {text' file : String}
    (h : compileQuery { env with text } tree = .ok q) (hwith : WithFile file tree tree') :
    ∃ q', compileQuery { env with text := text' } tree' = .ok q' ∧ ReadsFile env.lib file q q' := by
  obtain ⟨-, pipe, at', stages', hstages, hmoves⟩ := hwith
  have hheads := forall₂_heads hmoves
  have htake : tree'.stages.takeWhile isHead = fileStage file pipe at' :: stages'.takeWhile isHead := by
    rw [hstages]
    exact List.takeWhile_cons_of_pos rfl
  have hdrop : tree'.stages.dropWhile isHead = stages'.dropWhile isHead := by
    rw [hstages]
    exact List.dropWhile_cons_of_pos rfl
  obtain ⟨q', hq', hhead, hrest⟩ := @compileQuery_beside { env with text } text' "file"
    (fun head head' => SameStages (.whereStage (fileIs file) :: head) head') tree tree'
    (fun head s hrun => htake ▸ headStages_withFile hheads.1 hrun)
    (fun head head' hsame range => by
      rw [← narrow_fileIs file head, ← narrow_unplaced, hsame, narrow_unplaced])
    (hdrop ▸ hheads.2) q h
  exact ⟨q', hq', readsFile_of_same hhead hrest⟩

/-- A text of nothing but comments and spaces names no source and has no stages. -/
theorem parse_nothing {tree : Syntax.Query} (h : parse abc text = .ok tree) :
    skipSpaceAndComments (runes text) = [] ↔ tree = ⟨none, []⟩ := by
  obtain ⟨ts, hspells, htokens⟩ := parse_eq_ok_iff.1 h
  constructor
  · intro hskip
    have hnone : TokensOf abc 0 (runes text) [] := ⟨[], runes text, rfl, hskip, .nil⟩
    obtain rfl : ts = [] := (scan_iff.2 htokens).1.symm.trans (scan_iff.2 hnone).1
    obtain ⟨source, stages⟩ := tree
    cases source with
    | some id =>
      obtain ⟨-, kind, us, hts, -⟩ := hspells
      cases hts
    | none =>
      cases stages with
      | nil => rfl
      | cons s rest =>
        obtain ⟨-, us, vs, hts, hs, -⟩ := hspells
        obtain ⟨span, word, us', rfl, -⟩ := spellsStage_word hs
        cases hts
  · rintro rfl
    cases hspells
    obtain ⟨a, rest, htext, hskip, hreads⟩ := htokens
    rw [htext, hreads.nil_text]
    exact hskip

/-- A Query's text on a file is the Query on the file exactly where the text has a token, or spaces
alone. -/
theorem onFile_exact_iff (h : compileText abc env text = .ok q) (file : String) :
    OnFileExact abc env text file q ↔
      skipSpaceAndComments (runes text) ≠ [] ∨ ∀ r ∈ runes text, isSpace r.value = true := by
  obtain ⟨tree, hparse, hcompile⟩ := compileText_eq_ok_iff.1 h
  constructor
  · rintro ⟨q', hq', -⟩
    by_contra hcomment
    rw [not_or, not_not] at hcomment
    obtain rfl := (parse_nothing hparse).1 hcomment.1
    obtain ⟨tree', hparse', -⟩ := compileText_eq_ok_iff.1 hq'
    exact parse_onFile_comment hparse hcomment.2 file tree' hparse'
  · intro hcondition
    obtain ⟨tree', hparse', hwith⟩ : ∃ tree', parse abc (onFile abc text file) = .ok tree' ∧
        WithFile file tree tree' := by
      by_cases hempty : tree = ⟨none, []⟩
      · subst hempty
        have hspaces := hcondition.resolve_left (not_not.2 ((parse_nothing hparse).2 rfl))
        exact parse_onFile_spaces hparse hspaces file
      · cases hsource : tree.source with
        | some source => exact parse_onFile_source hparse hsource file
        | none =>
          refine parse_onFile_stages hparse hsource (fun hstages => hempty ?_) file
          cases tree
          cases hsource
          cases hstages
          rfl
    obtain ⟨q', hq', hreads⟩ := compile_withFile hcompile hwith
    refine ⟨q', compileText_eq_ok_iff.2 ⟨tree', hparse', hq'⟩, hreads, ?_⟩
    rw [sourceName_of_parse hparse, sourceName_of_parse hparse', hwith.source]

/-- A text that compiles. -/
theorem exists_compiled (h : (compileText abc env text).isOk = true) : ∃ q, compileText abc env text = .ok q := by
  cases hcompiled : compileText abc env text with
  | error err => simp [hcompiled, Except.isOk, Except.toBool] at h
  | ok q => exact ⟨q, rfl⟩

/-- The errors of a file. -/
theorem onFile_exact_iff_errors : ∃ q, compileText Sample.alphabet Sample.env "where level == \"error\"" = .ok q ∧
    OnFileExact Sample.alphabet Sample.env "where level == \"error\"" "app.log" q := by
  obtain ⟨q, hq⟩ := @exists_compiled Sample.alphabet Sample.env "where level == \"error\"" (by decide +kernel)
  exact ⟨q, hq, (onFile_exact_iff hq "app.log").2 (.inl (by decide))⟩

/-- A Query of a comment alone, of every Log, does not compile on a file. -/
theorem not_onFileExact_comment : ∃ q, compileText Sample.alphabet Sample.env "// every Log" = .ok q ∧
    ¬ OnFileExact Sample.alphabet Sample.env "// every Log" "app.log" q := by
  obtain ⟨q, hq⟩ := @exists_compiled Sample.alphabet Sample.env "// every Log" (by decide +kernel)
  have hparse : parse Sample.alphabet "// every Log" = .ok ⟨none, []⟩ :=
    parse_eq_ok_iff.2 ⟨[], rfl, [], _, rfl, by decide, .nil⟩
  refine ⟨q, hq, ?_⟩
  rintro ⟨q', hq', -⟩
  obtain ⟨tree', hparse', -⟩ := compileText_eq_ok_iff.1 hq'
  exact parse_onFile_comment hparse (by decide) "app.log" tree' hparse'

end Claim

end SolidTrace.LogQuery
