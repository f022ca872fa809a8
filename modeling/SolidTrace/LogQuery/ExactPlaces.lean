import SolidTrace.LogQuery.Extents
import SolidTrace.LogQuery.ParseTexts
import SolidTrace.LogQuery.StagePlaces
import SolidTrace.LogQuery.Writable

/-!
# When the places of stages are exact

A stage's place starts at its keyword unless what stands between its pipe and its keyword has a comment,
or a space that is not trimmed. Then the place starts before the keyword, and what the others make of
the place is about another text.
-/

namespace SolidTrace.LogQuery

open Scanner

section Boundaries

/-- The characters of a text are those of its runes. -/
@[simp] theorem runes_value (text : String) : (runes text).map Rune.value = text.toList := by
  simp [runes, Function.comp_def, Rune.value]

/-- The start of a text, up to where it was joined. -/
theorem upTo_append (a b : Text) : (a ++ b).upTo a.size = a := by
  induction a with
  | nil =>
    cases b with
    | nil => rfl
    | cons r b =>
      have hr := r.size_pos
      rw [List.nil_append, Text.upTo, Text.size_nil, if_neg (by omega), List.take_zero, List.map_nil]
  | cons r a ih =>
    rw [List.cons_append, Text.upTo, Text.size_cons, if_pos (Nat.le_add_right _ _),
      Nat.add_sub_cancel_left, ih]

/-- The place after a part of a text. -/
theorem positionOf_append (pre post : String) : positionOf (pre ++ post) (runes pre).size =
    ⟨(Positions.after (1, 1) pre.toList).1, (Positions.after (1, 1) pre.toList).2⟩ := by
  have hsize : ((runes pre).size : ℤ) ≤ (runes (pre ++ post)).size := by
    rw [runes_append, Text.size_append]
    omega
  have hoffset : (max 0 (min ((runes pre).size : ℤ) (runes (pre ++ post)).size)).toNat =
      (runes pre).size := by
    rw [min_eq_left hsize]
    omega
  simp only [positionOf, hoffset]
  rw [runes_append, upTo_append, runes_value]

/-- Two parts that a text starts with are the same when the places after them are. -/
theorem positionOf_inj {pre post pre' post' : String} (h : pre ++ post = pre' ++ post')
    (hplace : positionOf (pre ++ post) (runes pre).size = positionOf (pre' ++ post') (runes pre').size) :
    pre = pre' := by
  rw [positionOf_append, positionOf_append, Position.mk.injEq] at hplace
  have hlists : pre.toList ++ post.toList = pre'.toList ++ post'.toList := by
    rw [← String.toList_append, h, String.toList_append]
  exact String.toList_injective (Positions.after_inj hlists (Prod.ext hplace.1 hplace.2))

/-- The UTF-16 of two texts is that of each. -/
@[simp] theorem utf16_append (a b : String) : utf16 (a ++ b) = utf16 a ++ utf16 b := by
  simp [utf16]

/-- The string index of the place after a part of a text. -/
theorem offsetOf_append (pre post : String) :
    offsetOf (pre ++ post) (positionOf (pre ++ post) (runes pre).size).line
      (positionOf (pre ++ post) (runes pre).size).column = (utf16 pre).length := by
  rw [positionOf_append, offsetOf, String.toList_append, Prod.mk.eta, Positions.walk_after, utf16,
    List.length_flatMap, Nat.zero_add]

end Boundaries

section Heads

/-- Tokens that a text starts with take all of it. -/
theorem ScansTo.extent {abc : Alphabet} {rest a : Text} {start : ℕ} {tok : Token} {ts : List Token}
    (h : ScansTo abc rest start a (tok :: ts)) (hstart : tok.span.start = start) :
    LogQuery.extent (tok :: ts) = ⟨start, (start + a.size : ℕ)⟩ := by
  have hstop := h.last_stop (ts.getLastD tok) (by simp [List.getLast?_cons])
  rw [LogQuery.extent, hstart, hstop]

end Heads

section Standing

/-- Where a stage stands in a text: after a lead, which is its pipe and a gap, or nothing when it has no
pipe. -/
structure Stands (abc : Alphabet) (s : Syntax.Stage) (us : List Token)
    (before lead written after : String) : Prop where
  reads : ScansTo abc (runes after) ((runes before).size + (runes lead).size) (runes written) us
  covers : extent us = ⟨((runes before).size + (runes lead).size : ℕ),
    ((runes before).size + (runes lead).size + (runes written).size : ℕ)⟩
  lead : s.pipe = .null ∧ lead = "" ∨ ∃ gap, lead = "|" ++ gap ∧
    Gap (runes gap) ∧ s.pipe = ⟨(runes before).size, ((runes before).size + 1 : ℕ)⟩
  ends : EndsAtPipe (runes after)

/-- A pipe takes one byte. -/
theorem runes_pipe (gap : String) : (runes ("|" ++ gap)).size = 1 + (runes gap).size := by
  rw [runes_append, Text.size_append]
  rfl

/-- A stage's place, from its pipe to its last token. -/
theorem Stands.span {abc : Alphabet} {src : Source} {s : Syntax.Stage} {us : List Token}
    {before lead written after : String} (h : Stands abc s us before lead written after)
    (hspells : spellsStage src s us) : s.span =
      ⟨(runes before).size, ((runes before).size + (runes (lead ++ written)).size : ℕ)⟩ := by
  have hplaced := h.reads.placed
  have hpipe : PipeBefore s.pipe ((runes before).size + (runes lead).size : ℕ) := by
    rcases h.lead with ⟨hnull, -⟩ | ⟨gap, rfl, -, hpipe⟩
    · exact .inl hnull
    · refine .inr ?_
      rw [hpipe, runes_pipe]
      simp only
      omega
  obtain ⟨hne, hspan⟩ := spellsStage_extent s hspells hpipe (by omega) hplaced
  obtain ⟨-, hu, -⟩ : Within _ (extent us) _ := hplaced.extent hne
  rw [h.covers] at hu
  rw [hspan, h.covers, runes_append, Text.size_append]
  rcases h.lead with ⟨hnull, rfl⟩ | ⟨gap, rfl, -, hpipe'⟩
  · rw [hnull, null_join (.inr (Span.isValid_iff.2 (by simp only; omega)))]
    simp [runes]
  · rw [hpipe', join_valid (Span.isValid_iff.2 (by simp only; omega))
      (Span.isValid_iff.2 (by simp only; omega))]
    simp only [Span.mk.injEq]
    simp only at hu
    omega

/-- The characters that are trimmed from a stage's span. -/
def trimmed : List Char := ['|', ' ', '\t', '\r', '\n']

/-- What is trimmed off the left stands before the rest. -/
theorem takeWhile_trimLeft (text : String) (cutset : List Char) :
    String.ofList (text.toList.takeWhile (· ∈ cutset)) ++ trimLeft text cutset = text := by
  rw [trimLeft, ← String.ofList_append, List.takeWhile_append_dropWhile, String.ofList_toList]

/-- What a stage's span has, with what is trimmed of it. -/
theorem Stands.place {abc : Alphabet} {src : Source} {s : Syntax.Stage} {us : List Token}
    {text before lead written after : String} (h : Stands abc s us before lead written after)
    (hspells : spellsStage src s us) (htext : text = before ++ (lead ++ (written ++ after)))
    (filter builder : Bool) :
    let dropped := String.ofList ((lead ++ written).toList.takeWhile (· ∈ trimmed))
    stagePlace text s.span filter builder =
      ⟨(positionOf text (runes (before ++ dropped)).size).line,
        (positionOf text (runes (before ++ dropped)).size).column,
        (positionOf text (runes (before ++ (lead ++ written))).size).line,
        (positionOf text (runes (before ++ (lead ++ written))).size).column, filter, builder⟩ := by
  intro dropped
  have hpart : (⟨text, id⟩ : Source).text = before ++ (lead ++ written) ++ after := by
    rw [htext, String.append_assoc, String.append_assoc]
  have hwritten := Source.at_part hpart
  have hsplit : lead ++ written = dropped ++ trimLeft (lead ++ written) trimmed :=
    (takeWhile_trimLeft _ _).symm
  have hsizes : (runes (lead ++ written)).size =
      (runes dropped).size + (runes (trimLeft (lead ++ written) trimmed)).size := by
    conv_lhs => rw [hsplit]
    rw [runes_append, Text.size_append]
  have hstart : ((runes before).size : ℤ) + (runes (lead ++ written)).size -
      (runes (trimLeft (lead ++ written) trimmed)).size = (runes (before ++ dropped)).size := by
    rw [hsizes, runes_append before, Text.size_append]
    omega
  have hstop : (((runes before).size + (runes (lead ++ written)).size : ℕ) : ℤ) =
      (runes (before ++ (lead ++ written))).size := by
    rw [runes_append before, Text.size_append]
  rw [h.span hspells, stagePlace]
  simp only [hwritten]
  rw [hstop]
  rw [trimmed] at hstart
  rw [hstart]

/-- A stage starts with its keyword, which ends where a name does. -/
theorem Stands.keyword {abc : Alphabet} {src : Source} {s : Syntax.Stage} {us : List Token}
    {before lead written after : String} (h : Stands abc s us before lead written after)
    (hspells : spellsStage src s us) : ∃ span word rest, us = ⟨.identifier, span, word⟩ :: rest ∧
      word ∈ stageWords s ∧ ∃ tail, written = word ++ tail ∧
        (∀ c ∈ (tail ++ after).toList.head?, isIdentPart abc c = false) ∧
        ∃ n, ScansTo abc (runes after) n (runes tail) rest := by
  obtain ⟨span, word, rest, rfl, hword⟩ := spellsStage_word hspells
  have hstart : span.start = ((runes before).size + (runes lead).size : ℕ) := by
    have hextent := congrArg Span.start h.covers
    exact hextent
  obtain ⟨w, b, hwritten, htoken, -, hreads⟩ := h.reads.head hstart
  obtain ⟨found, tail, rfl, rfl, rfl⟩ := exists_of_runes_append hwritten
  obtain ⟨hvalue, hnext⟩ := htoken.identifier
  simp only [string_runes] at hvalue
  subst hvalue
  refine ⟨span, word, rest, rfl, hword, tail, rfl, fun c hc => ?_, _, hreads⟩
  rw [← runes_append] at hnext
  refine hnext (.char c) ?_
  rw [runes, List.head?_map, Option.mem_def.1 hc]
  rfl

/-- A place from one byte of a text to another. -/
def StageAt (text : String) (st : StagePlace) (span : Span) : Prop :=
  positionOf text span.start = ⟨st.line, st.column⟩ ∧
    positionOf text span.stop = ⟨st.endLine, st.endColumn⟩

/-- The words of a stage start with a character that is not trimmed. -/
theorem stageWords_head {s : Syntax.Stage} : ∀ word ∈ stageWords s,
    ∃ c cs, word.toList = c :: cs ∧ c ∉ trimmed := by
  cases s <;> simp [stageWords, trimmed]

/-- A stage's place is exact when all before its keyword is trimmed. -/
theorem Stands.exact_iff {abc : Alphabet} {src : Source} {s : Syntax.Stage} {us : List Token}
    {text before lead written after : String} (h : Stands abc s us before lead written after)
    (hspells : spellsStage src s us) (htext : text = before ++ (lead ++ (written ++ after)))
    (filter builder : Bool) : StageAt text (stagePlace text s.span filter builder) (extent us) ↔
      ∀ c ∈ lead.toList, c ∈ trimmed := by
  have hplace := h.place hspells htext filter builder
  generalize hdropped : String.ofList ((lead ++ written).toList.takeWhile (· ∈ trimmed)) = dropped
    at hplace
  obtain ⟨span, word, rest, rfl, hword, tail, rfl, -⟩ := h.keyword hspells
  obtain ⟨c, cs, hc, hletter⟩ := stageWords_head word hword
  have hstart : (((runes before).size + (runes lead).size : ℕ) : ℤ) = (runes (before ++ lead)).size := by
    rw [runes_append, Text.size_append]
  have hstop : (((runes before).size + (runes lead).size + (runes (word ++ tail)).size : ℕ) : ℤ) =
      (runes (before ++ (lead ++ (word ++ tail)))).size := by
    rw [runes_append before, runes_append lead, Text.size_append, Text.size_append, Nat.add_assoc]
  have hlead : before ++ lead ++ ((word ++ tail) ++ after) = text := by
    rw [htext, String.append_assoc]
  have hsplit : before ++ dropped ++ (trimLeft (lead ++ (word ++ tail)) trimmed ++ after) = text := by
    have hwhole := takeWhile_trimLeft (lead ++ (word ++ tail)) trimmed
    rw [hdropped] at hwhole
    rw [String.append_assoc, ← @String.append_assoc dropped, hwhole, htext, @String.append_assoc lead]
  rw [StageAt, hplace, h.covers]
  simp only [hstart, hstop, and_true]
  constructor
  · intro heq
    have hsame : before ++ lead = before ++ dropped :=
      positionOf_inj (hlead.trans hsplit.symm) (by rw [hlead, hsplit]; exact heq)
    have hlead' : lead.toList = dropped.toList := by
      have hlists := congrArg String.toList hsame
      rw [String.toList_append, String.toList_append] at hlists
      exact List.append_cancel_left hlists
    intro c hc
    rw [hlead', ← hdropped, String.toList_ofList] at hc
    exact of_decide_eq_true (List.all_eq_true.1 List.all_takeWhile c hc)
  · intro hall
    have hsame : dropped = lead := by
      rw [← hdropped, String.toList_append, String.toList_append, hc,
        List.takeWhile_append_of_pos (by simpa using hall), List.cons_append, List.takeWhile_cons,
        if_neg (by simpa using hletter), List.append_nil, String.ofList_toList]
    rw [hsame]

/-- The explorer names a stage that is placed exactly by the stage's own text. -/
theorem Stands.textOf {abc : Alphabet} {s : Syntax.Stage} {us : List Token}
    {text before lead written after : String} {st : StagePlace}
    (h : Stands abc s us before lead written after)
    (htext : text = before ++ (lead ++ (written ++ after))) (hplace : StageAt text st (extent us)) :
    QueryMode.textOf text st = utf16 written := by
  have hstart : (((runes before).size + (runes lead).size : ℕ) : ℤ) = (runes (before ++ lead)).size := by
    rw [runes_append, Text.size_append]
  have hstop : (((runes before).size + (runes lead).size + (runes written).size : ℕ) : ℤ) =
      (runes (before ++ lead ++ written)).size := by
    rw [runes_append, runes_append before, Text.size_append, Text.size_append]
  have hfrom : text = before ++ lead ++ (written ++ after) := by rw [htext, String.append_assoc]
  have hto : text = before ++ lead ++ written ++ after := by
    rw [htext]
    simp only [String.append_assoc]
  obtain ⟨hline, hend⟩ := hplace
  rw [h.covers] at hline hend
  simp only [hstart, hstop] at hline hend
  have hstart' := offsetOf_append (before ++ lead) (written ++ after)
  have hstop' := offsetOf_append (before ++ lead ++ written) after
  rw [← hfrom, hline] at hstart'
  rw [← hto, hend] at hstop'
  have hlength : (utf16 (before ++ lead ++ written)).length - (utf16 (before ++ lead)).length =
      (utf16 written).length := by
    rw [utf16_append (before ++ lead), List.length_append]
    omega
  rw [QueryMode.textOf, hstart', hstop', sliceUnits, hlength, hfrom, utf16_append (before ++ lead),
    List.drop_left, utf16_append, List.take_left]

/-- The text of a stage's tokens is the stage's own. -/
theorem Stands.at_extent {abc : Alphabet} {src : Source} {s : Syntax.Stage} {us : List Token}
    {before lead written after : String} (h : Stands abc s us before lead written after)
    (htext : src.text = before ++ (lead ++ (written ++ after))) : src.at (extent us) = written := by
  have hpart : src.text = before ++ lead ++ written ++ after := by
    rw [htext, String.append_assoc, String.append_assoc]
  have hat := Source.at_part hpart
  rw [runes_append, Text.size_append] at hat
  rw [h.covers]
  exact hat

/-- Whether a stage counts or summarizes. -/
def isSummary : Syntax.Stage → Bool
  | .summarizeStage _ _ _ _ => true
  | .countStage _ _ => true
  | _ => false

/-- A text starts with a word that nothing of a word follows. -/
theorem startsWithWord_self {words : WordCharacters} {word : String} {rest : List Char}
    (hrest : ∀ c ∈ rest.head?, words.isWord c = false) :
    startsWithWord words word (word.toList ++ rest) = true := by
  have hprefix : word.toList.isPrefixOf (word.toList ++ rest) = true :=
    List.isPrefixOf_iff_prefix.2 (List.prefix_append _ _)
  have hdrop : (word.toList ++ rest).drop word.length = rest := by
    rw [← String.length_toList, List.drop_left]
  rw [startsWithWord, hprefix, hdrop, Bool.true_and, bne_iff_ne]
  cases hhead : rest.head? with
  | none => simp
  | some c => simp [hrest c (by rw [hhead]; rfl)]

/-- A text does not start with a word that is no prefix of it. -/
theorem startsWithWord_other {words : WordCharacters} {word : String} {text : List Char}
    (h : word.toList.isPrefixOf text = false) : startsWithWord words word text = false := by
  rw [startsWithWord, h, Bool.false_and]

/-- A text that starts with a stage starts with `summarize` or `count` when the stage is one of them. -/
theorem startsWithWord_stage {words : WordCharacters} {s : Syntax.Stage} {word : String}
    {rest : List Char} (hword : word ∈ stageWords s)
    (hrest : ∀ c ∈ rest.head?, words.isWord c = false) :
    (startsWithWord words "summarize" (word.toList ++ rest) ||
      startsWithWord words "count" (word.toList ++ rest)) = isSummary s := by
  cases s with
  | summarizeStage =>
    obtain rfl : word = "summarize" := by simpa [stageWords] using hword
    rw [startsWithWord_self hrest]
    rfl
  | countStage =>
    obtain rfl : word = "count" := by simpa [stageWords] using hword
    rw [startsWithWord_self hrest, Bool.or_true]
    rfl
  | sortStage | takeStage =>
    rcases (by simpa [stageWords] using hword : word = _ ∨ word = _) with rfl | rfl
    · rw [startsWithWord_other (by rfl), startsWithWord_other (by rfl)]
      rfl
    · rw [startsWithWord_other (by rfl), startsWithWord_other (by rfl)]
      rfl
  | _ =>
    obtain rfl : word = _ := by simpa [stageWords] using hword
    rw [startsWithWord_other (by rfl), startsWithWord_other (by rfl)]
    rfl

/-- A Monitor's check of a last stage that is placed exactly is right. -/
theorem Stands.endsInSummarize {abc : Alphabet} {src : Source} {s : Syntax.Stage} {us : List Token}
    {text before lead written after : String} {st : StagePlace} (words : WordCharacters)
    (h : Stands abc s us before lead written after) (hspells : spellsStage src s us)
    (htext : text = before ++ (lead ++ (written ++ after))) (hplace : StageAt text st (extent us)) :
    endsInSummarize words text (some st) = isSummary s := by
  obtain ⟨span, word, rest, rfl, hword, tail, rfl, hended, n, htail⟩ := h.keyword hspells
  obtain ⟨c, cs, hc, -⟩ := stageWords_head word hword
  have hstart : (((runes before).size + (runes lead).size : ℕ) : ℤ) = (runes (before ++ lead)).size := by
    rw [runes_append, Text.size_append]
  have hfrom : text = before ++ lead ++ (word ++ tail ++ after) := by
    rw [htext, ← @String.append_assoc before]
  have hne : text ≠ "" := by
    intro hempty
    have hlength := congrArg String.toList (hfrom.symm.trans hempty)
    simp [hc] at hlength
  have hline := hplace.1
  rw [h.covers] at hline
  simp only [hstart] at hline
  rw [hfrom, positionOf_append, Position.mk.injEq] at hline
  have hoffset := Positions.sizeOfLines_place (before ++ lead).toList (word ++ tail ++ after).toList
  rw [hline.1, hline.2, ← String.toList_append, ← hfrom] at hoffset
  have hdrop : text.toList.drop (before ++ lead).toList.length = word.toList ++ (tail ++ after).toList := by
    rw [hfrom, @String.toList_append (before ++ lead), List.drop_left, String.append_assoc,
      String.toList_append]
  have hnot : ∀ c ∈ (tail ++ after).toList.head?, words.isWord c = false := by
    intro c hc
    have hrune : Rune.char c ∈ (runes tail ++ runes after).head? := by
      rw [← runes_append, runes, List.head?_map, Option.mem_def.1 hc]
      rfl
    rcases head_of_ended htail h.ends hrune (hended c hc) with hspace | ⟨hascii, halnum, hunder⟩
    · exact words.space c hspace
    · rw [words.ascii c hascii]
      simpa using ⟨halnum, hunder⟩
  simp only [LogQuery.endsInSummarize, if_neg hne, hoffset, hdrop]
  exact startsWithWord_stage hword hnot

end Standing

section Pipes

def isPipe (tok : Token) : Bool := tok.kind = .pipe

/-- The tokens of each stage of a Query, without its pipe. -/
def stageTokens : List Token → List (List Token)
  | [] => []
  | tok :: rest =>
    if Parser.isSource tok then (rest.splitOnP isPipe).tail else (tok :: rest).splitOnP isPipe

/-- A space, a tab or a line break. -/
def isBlank (c : Char) : Bool := c = ' ' || c = '\t' || c = '\r' || c = '\n'

/-- Whether only spaces, tabs and line breaks stand between a token and the next one. -/
def blankBetween (src : Source) (tok : Token) : List Token → Bool
  | [] => true
  | next :: _ => (src.at ⟨tok.span.stop, next.span.start⟩).toList.all isBlank

/-- Whether only spaces, tabs and line breaks stand between each pipe and what comes after it. -/
def blankAfterPipes (src : Source) : List Token → Bool
  | [] => true
  | tok :: rest => (!isPipe tok || blankBetween src tok rest) && blankAfterPipes src rest

/-- Whether a pipe is followed by nothing is asked of pipes only. -/
theorem blankAfterPipes_append {src : Source} {us vs : List Token}
    (hus : ∀ tok ∈ us, isPipe tok = false) :
    blankAfterPipes src (us ++ vs) = blankAfterPipes src vs := by
  induction us with
  | nil => rfl
  | cons tok us ih =>
    rw [List.cons_append, blankAfterPipes, hus tok List.mem_cons_self,
      ih fun tok htok => hus tok (List.mem_cons_of_mem _ htok)]
    rfl

/-- Tokens are split at the first pipe. -/
theorem splitOnP_append {us vs : List Token} (hus : ∀ tok ∈ us, isPipe tok = false)
    (hvs : ∀ tok ∈ vs.head?, isPipe tok = true) :
    (us ++ vs).splitOnP isPipe = us :: (vs.splitOnP isPipe).tail := by
  cases vs with
  | nil =>
    rw [List.append_nil, List.splitOnP_eq_singleton hus]
    rfl
  | cons tok vs =>
    have htok := hvs tok rfl
    rw [List.splitOnP_append_cons_of_forall_mem hus tok htok, List.splitOnP_cons_eq_if_modifyHead,
      if_pos htok, List.tail_cons]

/-- A stage stands somewhere in a Query's text. -/
def StandsIn (abc : Alphabet) (src : Source) (s : Syntax.Stage) (us : List Token) : Prop :=
  spellsStage src s us ∧ ∃ before lead written after,
    src.text = before ++ (lead ++ (written ++ after)) ∧ Stands abc s us before lead written after

/-- Only spaces, tabs and line breaks stand between a stage's pipe and the stage. -/
def BlankLead (src : Source) (s : Syntax.Stage) (us : List Token) : Prop :=
  s.pipe = .null ∨ (src.at ⟨s.pipe.stop, (extent us).start⟩).toList.all isBlank = true

/-- A stage is spelled without a pipe. -/
theorem spellsStage_noPipe {src : Source} {s : Syntax.Stage} {us : List Token}
    (h : spellsStage src s us) : ∀ tok ∈ us, isPipe tok = false := by
  intro tok htok
  have hkind := spellsStage_inStage h tok htok
  by_contra hpipe
  have hpipe' : tok.kind = .pipe := by simpa [isPipe] using hpipe
  simp [inStage, hpipe'] at hkind

/-- What follows a stage starts with a pipe, if anything does. -/
theorem spellsPiped_head {src : Source} {stages : List Syntax.Stage} {ts : List Token}
    (h : spellsPiped src stages ts) : ∀ tok ∈ ts.head?, isPipe tok = true := by
  cases stages with
  | nil =>
    obtain rfl : ts = [] := h
    exact nofun
  | cons s stages =>
    obtain ⟨value, us, vs, rfl, -⟩ := h
    intro tok htok
    obtain rfl : _ = tok := by simpa using htok
    rfl

/-- What comes before a pipe, or ends a Query, ends a stage. -/
theorem TokensOf.endsAtPipe {abc : Alphabet} {start : ℕ} {text : Text} {ts : List Token}
    (h : TokensOf abc start text ts) (hts : ∀ tok ∈ ts.head?, isPipe tok = true) :
    EndsAtPipe text := by
  obtain ⟨a, rest, rfl, hrest, hreads⟩ := h
  cases hreads with
  | nil =>
    rw [List.nil_append, EndsAtPipe, hrest]
    exact nofun
  | @cons _ gap w a kind value ts hgap htoken _ =>
    have hkind : kind = .pipe := of_decide_eq_true (hts _ rfl)
    subst hkind
    obtain ⟨r, rfl, hr⟩ := htoken.pipe
    rw [EndsAtPipe, List.append_assoc, List.append_assoc, hgap, htoken.skip]
    intro c hc
    obtain rfl : r = c := by simpa using hc
    exact hr

/-- The tokens of a stage after its pipe. -/
theorem stage_stands {abc : Alphabet} {src : Source} {s : Syntax.Stage} {us vs : List Token}
    {value pre post : String} (htext : src.text = pre ++ post) (hspells : spellsStage src s us)
    (h : TokensOf abc (runes pre).size (runes post) ((⟨.pipe, s.pipe, value⟩ :: us) ++ vs))
    (hvs : ∀ tok ∈ vs.head?, isPipe tok = true) :
    StandsIn abc src s us ∧
      (blankBetween src ⟨.pipe, s.pipe, value⟩ (us ++ vs) = true ↔ BlankLead src s us) ∧
      ∃ pre' post', src.text = pre' ++ post' ∧ TokensOf abc (runes pre').size (runes post') vs := by
  obtain ⟨a, b, hsplit, ha, hb⟩ := h.split
  obtain ⟨span, word, us, rfl, -⟩ := spellsStage_word hspells
  -- The pipe after what comes before it, and the stage after its gap.
  obtain ⟨lead, a, rfl, -, ha, hpipe⟩ := ha.skip_gap
  obtain ⟨w, a, rfl, htoken, hstop, ha⟩ := ha.head hpipe
  obtain ⟨r, rfl, hr⟩ := htoken.pipe
  obtain ⟨gap, written, rfl, hgap, ha, hstart⟩ := ha.skip_gap
  obtain ⟨lead, rest₁, rfl, rfl, hrest₁⟩ := exists_of_runes_append (hsplit.trans (List.append_assoc _ _ _))
  obtain ⟨pipe, rest₂, rfl, hpipeText, hrest₂⟩ := exists_of_runes_append (hrest₁.trans (List.append_assoc _ _ _))
  obtain ⟨gap, rest₃, rfl, rfl, hrest₃⟩ := exists_of_runes_append (hrest₂.trans (List.append_assoc _ _ _))
  obtain ⟨written, after, rfl, rfl, rfl⟩ := exists_of_runes_append hrest₃
  have hbar : r = .char '|' ∧ pipe = "|" := by
    cases r with
    | broken byte => simp [runes] at hpipeText
    | char c =>
      obtain rfl : c = '|' := hr
      exact ⟨rfl, runes_injective hpipeText⟩
  obtain ⟨rfl, rfl⟩ := hbar
  have hone : Text.size [Rune.char '|'] = 1 := rfl
  have hplace : (runes pre).size + (runes lead).size + Text.size [Rune.char '|'] + (runes gap).size =
      (runes (pre ++ lead)).size + (runes ("|" ++ gap)).size := by
    rw [runes_append pre, Text.size_append, runes_pipe, hone, Nat.add_assoc]
  have hpipe' : s.pipe = ⟨(runes (pre ++ lead)).size, ((runes (pre ++ lead)).size + 1 : ℕ)⟩ := by
    rw [runes_append, Text.size_append]
    exact Span.mk.injEq _ _ _ _ ▸ ⟨hpipe, hstop⟩
  rw [hplace] at ha hstart
  refine ⟨⟨hspells, pre ++ lead, "|" ++ gap, written, after, ?_, ?_⟩, ?_, ?_⟩
  · rw [htext]
    simp only [String.append_assoc]
  · refine ⟨ha, ha.extent hstart, .inr ⟨gap, rfl, hgap, hpipe'⟩, hb.endsAtPipe hvs⟩
  · have hnotNull : s.pipe ≠ .null := by
      rw [hpipe']
      intro hnull
      have hneg := congrArg Span.start hnull
      simp only [Span.null] at hneg
      omega
    rw [BlankLead, or_iff_right hnotNull]
    rfl
  · refine ⟨pre ++ (lead ++ ("|" ++ (gap ++ written))), after, ?_, ?_⟩
    · rw [htext]
      simp only [String.append_assoc]
    · have hsize : (runes (pre ++ (lead ++ ("|" ++ (gap ++ written))))).size = (runes pre).size +
          (runes lead ++ ([Rune.char '|'] ++ (runes gap ++ runes written))).size := by
        simp only [runes_append, Text.size_append]
        rfl
      rw [hsize]
      exact hb

/-- Every stage after a pipe stands in the text. -/
theorem piped_stands {abc : Alphabet} {src : Source} {stages : List Syntax.Stage} {ts : List Token}
    {pre post : String} (hspells : spellsPiped src stages ts) (htext : src.text = pre ++ post)
    (h : TokensOf abc (runes pre).size (runes post) ts) :
    List.Forall₂ (StandsIn abc src) stages (ts.splitOnP isPipe).tail ∧
      (blankAfterPipes src ts = true ↔
        List.Forall₂ (BlankLead src) stages (ts.splitOnP isPipe).tail) := by
  induction stages generalizing ts pre post with
  | nil =>
    obtain rfl : ts = [] := hspells
    exact ⟨.nil, by simp [blankAfterPipes]⟩
  | cons s stages ih =>
    obtain ⟨value, us, vs, rfl, hs, hrest⟩ := hspells
    have hus := spellsStage_noPipe hs
    have hvs := spellsPiped_head hrest
    rw [← List.cons_append] at h
    obtain ⟨hstands, hlead, pre', post', htext', hvs'⟩ := stage_stands htext hs h hvs
    obtain ⟨hothers, hblank⟩ := ih hrest htext' hvs'
    have hpipe : isPipe ⟨.pipe, s.pipe, value⟩ = true := rfl
    rw [List.splitOnP_cons_eq_if_modifyHead, if_pos hpipe, List.tail_cons, splitOnP_append hus hvs]
    refine ⟨.cons hstands hothers, ?_⟩
    rw [blankAfterPipes, blankAfterPipes_append hus, hpipe, Bool.not_true, Bool.false_or,
      Bool.and_eq_true, hlead, hblank, List.forall₂_cons]

/-- Every stage of a Query stands in its text. -/
theorem query_stands {abc : Alphabet} {src : Source} {tree : Syntax.Query} {ts : List Token}
    (hspells : spellsQuery src tree ts) (h : TokensOf abc 0 (runes src.text) ts) :
    List.Forall₂ (StandsIn abc src) tree.stages (stageTokens ts) ∧
      (blankAfterPipes src ts = true ↔
        List.Forall₂ (BlankLead src) tree.stages (stageTokens ts)) := by
  obtain ⟨source, stages⟩ := tree
  cases source with
  | some id =>
    obtain ⟨-, kind, us, rfl, hsource, hpiped⟩ := hspells
    rw [← List.singleton_append] at h
    obtain ⟨a, b, hsplit, -, hb⟩ := h.split
    obtain ⟨pre, post, htext, rfl, rfl⟩ := exists_of_runes_append hsplit
    rw [Nat.zero_add] at hb
    obtain ⟨hstands, hblank⟩ := piped_stands hpiped htext hb
    have hfirst : Parser.isSource ⟨kind, id.span, id.name⟩ = true := by
      rcases hsource with ⟨rfl, hname⟩ | rfl
      · simp [Parser.isSource, hname]
      · rfl
    have hnoPipe : isPipe ⟨kind, id.span, id.name⟩ = false := by
      rcases hsource with ⟨rfl, -⟩ | rfl <;> rfl
    rw [stageTokens, if_pos hfirst, blankAfterPipes, hnoPipe]
    exact ⟨hstands, hblank⟩
  | none =>
    cases stages with
    | nil =>
      obtain rfl : ts = [] := hspells
      exact ⟨.nil, by simp [blankAfterPipes, stageTokens]⟩
    | cons s rest =>
      obtain ⟨hnull, us, vs, rfl, hs, hpiped⟩ := hspells
      have hus := spellsStage_noPipe hs
      have hvs := spellsPiped_head hpiped
      obtain ⟨a, b, hsplit, ha, hb⟩ := h.split
      obtain ⟨span, word, us, rfl, hword⟩ := spellsStage_first hs
      obtain ⟨lead, a, rfl, -, ha, hstart⟩ := ha.skip_gap
      obtain ⟨before, rest₁, htext, rfl, hrest₁⟩ :=
        exists_of_runes_append (hsplit.trans (List.append_assoc _ _ _))
      obtain ⟨written, after, rfl, rfl, rfl⟩ := exists_of_runes_append hrest₁
      rw [Nat.zero_add] at ha hstart
      have hbefore : src.text = before ++ written ++ after := by rw [htext, String.append_assoc]
      rw [Nat.zero_add, ← runes_append] at hb
      obtain ⟨hstands, hblank⟩ := piped_stands hpiped hbefore hb
      have hfirst : Parser.isSource ⟨.identifier, span, word⟩ = false := by
        simp [Parser.isSource, hword]
      have hstage : StandsIn abc src s (⟨.identifier, span, word⟩ :: us) := by
        refine ⟨hs, before, "", written, after, by rw [htext, String.empty_append], ?_⟩
        refine ⟨ha, ha.extent hstart, .inl ⟨hnull, rfl⟩, hb.endsAtPipe hvs⟩
      have hlead : BlankLead src s (⟨.identifier, span, word⟩ :: us) := .inl hnull
      rw [List.cons_append, stageTokens, if_neg (by simp [hfirst]), ← List.cons_append,
        splitOnP_append hus hvs, blankAfterPipes_append hus]
      refine ⟨.cons hstage hstands, ?_⟩
      rw [hblank, List.forall₂_cons, and_iff_right hlead]

end Pipes

section Queries

/-- A gap is blank when all of it is trimmed. -/
theorem gap_blank {gap : String} (hgap : Gap (runes gap)) :
    gap.toList.all isBlank = true ↔ ∀ c ∈ gap.toList, c ∈ trimmed := by
  rw [runes] at hgap
  generalize gap.toList = cs at hgap
  induction cs with
  | nil => simp
  | cons c cs ih =>
    by_cases hc : isBlank c = true
    · have hc' : c = ' ' ∨ c = '\t' ∨ c = '\r' ∨ c = '\n' := by simpa [isBlank, or_assoc] using hc
      have hspace : isSpace c = true := by rcases hc' with rfl | rfl | rfl | rfl <;> rfl
      have hmem : c ∈ trimmed := by rcases hc' with rfl | rfl | rfl | rfl <;> decide
      have hrest : Gap (cs.map Rune.char) := fun text => by
        rw [← hgap text, List.map_cons, List.cons_append, @skip_space (.char c) hspace]
      rw [List.all_cons, hc, Bool.true_and, ih hrest, List.forall_mem_cons, and_iff_right hmem]
    · have hnot : c ∉ trimmed := by
        intro hmem
        -- A pipe is no part of a gap.
        have hpipe : c = '|' := by
          rcases List.mem_cons.1 hmem with h | h
          · exact h
          · exact absurd (by simpa [isBlank, or_assoc] using h) hc
        have hnil := hgap []
        rw [List.map_cons, List.append_nil, hpipe, skip_stop (by decide) (by simp [afterPrefix_cons, Rune.value])]
          at hnil
        cases hnil
      simp [hc, hnot]

/-- The gap after a stage's pipe is blank when all before its keyword is trimmed. -/
theorem Stands.blank_iff {abc : Alphabet} {src : Source} {s : Syntax.Stage} {us : List Token}
    {before lead written after : String} (h : Stands abc s us before lead written after)
    (htext : src.text = before ++ (lead ++ (written ++ after))) :
    BlankLead src s us ↔ ∀ c ∈ lead.toList, c ∈ trimmed := by
  rcases h.lead with ⟨hnull, rfl⟩ | ⟨gap, rfl, hgap, hpipe⟩
  · exact ⟨fun _ => nofun, fun _ => .inl hnull⟩
  · have hpart : src.text = before ++ "|" ++ gap ++ (written ++ after) := by
      rw [htext]
      simp only [String.append_assoc]
    have hat := Source.at_part hpart
    have hbar : (runes (before ++ "|")).size = (runes before).size + 1 := by
      rw [runes_append, Text.size_append]
      rfl
    have hnotNull : s.pipe ≠ .null := by
      rw [hpipe]
      intro hnull
      have hneg := congrArg Span.start hnull
      simp only [Span.null] at hneg
      omega
    rw [BlankLead, or_iff_right hnotNull, hpipe, h.covers]
    simp only
    rw [runes_pipe, ← Nat.add_assoc, ← hbar, hat, gap_blank hgap]
    simp [trimmed]

/-- What is said of a list's elements and of another's, when those of the first are made with their
places. -/
theorem forall₂_mapIdx {α β γ : Type} {R : β → γ → Prop} {S T : α → γ → Prop} {f : ℕ → α → β}
    {as : List α} {cs : List γ} (hT : List.Forall₂ T as cs)
    (h : ∀ i a c, T a c → (R (f i a) c ↔ S a c)) :
    List.Forall₂ R (as.mapIdx f) cs ↔ List.Forall₂ S as cs := by
  induction hT generalizing f with
  | nil => simp
  | cons hac _ ih =>
    rw [List.mapIdx_cons, List.forall₂_cons, List.forall₂_cons, h 0 _ _ hac,
      ih fun i a c hac => h (i + 1) a c hac]

/-- Places that follow from the elements' own follow for all of them. -/
theorem forall₂_mapIdx_imp {α β γ : Type} {R Q : β → γ → Prop} {T : α → γ → Prop} {f : ℕ → α → β}
    {as : List α} {cs : List γ} (hT : List.Forall₂ T as cs) (hQ : List.Forall₂ Q (as.mapIdx f) cs)
    (h : ∀ i a c, T a c → Q (f i a) c → R (f i a) c) : List.Forall₂ R (as.mapIdx f) cs := by
  induction hT generalizing f with
  | nil => simp
  | cons hac _ ih =>
    rw [List.mapIdx_cons, List.forall₂_cons] at hQ ⊢
    exact ⟨h 0 _ _ hac hQ.1, ih hQ.2 fun i a c hac => h (i + 1) a c hac⟩

/-- The last elements of two lists, if they have any. -/
theorem forall₂_getLast {α γ : Type} {R : α → γ → Prop} {as : List α} {cs : List γ}
    (h : List.Forall₂ R as cs) : as = [] ∧ cs = [] ∨
      ∃ a c, as.getLast? = some a ∧ cs.getLast? = some c ∧ R a c := by
  induction h with
  | nil => exact .inl ⟨rfl, rfl⟩
  | @cons a c as cs hac _ ih =>
    right
    rcases ih with ⟨rfl, rfl⟩ | ⟨a', c', ha, hc, hac'⟩
    · exact ⟨a, c, rfl, rfl, hac⟩
    · refine ⟨a', c', ?_, ?_, hac'⟩
      · rw [List.getLast?_cons, ha]
        rfl
      · rw [List.getLast?_cons, hc]
        rfl

/-- What the places of a Query's stages are for: each starts at its stage's keyword and ends after its
last token, a Monitor's check finds whether the last stage is a summarize or a count, and the explorer
names each stage by its own text. -/
structure ExactStages (words : WordCharacters) (src : Source) (tree : Syntax.Query)
    (stages : List StagePlace) (ts : List Token) : Prop where
  places : List.Forall₂ (fun st us => StageAt src.text st (extent us)) stages (stageTokens ts)
  ends : endsInSummarize words src.text stages.getLast? =
    (tree.stages.getLast?.map isSummary).getD false
  texts : List.Forall₂ (fun st us => QueryMode.textOf src.text st = utf16 (src.at (extent us))) stages
    (stageTokens ts)

/-- The places of a Query's stages are exact when only spaces, tabs and line breaks stand between each
pipe and its stage. -/
theorem stagesOf_exact_iff {abc : Alphabet} (words : WordCharacters) {text : String}
    {tree : Syntax.Query} (shown : ℕ → Bool) (h : parse abc text = .ok tree) :
    ExactStages words ⟨text, abc.quote⟩ tree (stagesOf text tree shown) (scan abc (runes text)) ↔
      blankAfterPipes ⟨text, abc.quote⟩ (scan abc (runes text)) = true := by
  obtain ⟨hspells, htokens⟩ := parse_tokens h
  obtain ⟨hstands, hblank⟩ := query_stands hspells htokens
  have hplaces : List.Forall₂ (fun st us => StageAt text st (extent us)) (stagesOf text tree shown)
      (stageTokens (scan abc (runes text))) ↔
        List.Forall₂ (BlankLead ⟨text, abc.quote⟩) tree.stages (stageTokens (scan abc (runes text))) := by
    refine forall₂_mapIdx hstands fun i s us hs => ?_
    obtain ⟨hspells, before, lead, written, after, htext, hstands⟩ := hs
    rw [hstands.exact_iff hspells htext, hstands.blank_iff htext]
  rw [hblank, ← hplaces]
  refine ⟨ExactStages.places, fun hexact => ⟨hexact, ?_, ?_⟩⟩
  · rcases forall₂_getLast hstands with ⟨hnil, -⟩ | ⟨s, us, hs, hus, hspells, before, lead, written, after,
      htext, hstage⟩
    · rw [stagesOf, hnil]
      rfl
    · rcases forall₂_getLast hexact with ⟨-, hnil⟩ | ⟨st, us', hst, hus', hplace⟩
      · rw [hnil] at hus
        cases hus
      · obtain rfl : us' = us := Option.some.inj (hus'.symm.trans hus)
        rw [hst, hs]
        exact hstage.endsInSummarize words hspells htext hplace
  · refine forall₂_mapIdx_imp hstands hexact fun i s us hs hplace => ?_
    obtain ⟨-, before, lead, written, after, htext, hstage⟩ := hs
    rw [hstage.textOf htext hplace, hstage.at_extent htext]

namespace Sample

def wordCharacters : WordCharacters where
  isWord c := c.isAlphanum || c = '_'
  ascii _ _ := rfl
  space c h := by
    have hline : c ≠ '_' := by
      rintro rfl
      revert h
      decide
    simp [isAlphanum_of_isSpace h, hline]

end Sample

private def errorsCount : String := "where level == \"error\" | summarize count()"

private def notedErrorsCount : String := "where level == \"error\" | // by day\nsummarize count()"

/-- The stages of a Query of errors are found where they stand. -/
theorem stagesOf_exact_iff_errorsCount :
    parse Sample.alphabet errorsCount = .ok (Sample.parsed errorsCount) ∧
      ExactStages Sample.wordCharacters ⟨errorsCount, Sample.alphabet.quote⟩ (Sample.parsed errorsCount)
        (stagesOf errorsCount (Sample.parsed errorsCount) fun _ => true)
        (scan Sample.alphabet (runes errorsCount)) := by
  have hparse := @Sample.parse_parsed errorsCount (by decide +kernel)
  exact ⟨hparse, (stagesOf_exact_iff Sample.wordCharacters _ hparse).2 (by decide +kernel)⟩

/-- A comment after a pipe hides from a Monitor's check that its Query ends in a summarize. -/
theorem not_exactStages_notedErrorsCount :
    ∃ tree q, parse Sample.alphabet notedErrorsCount = .ok tree ∧ compileQuery Sample.env tree = .ok q ∧
      tree.stages.getLast?.map isSummary = some true ∧
      endsInSummarize Sample.wordCharacters notedErrorsCount
        (stagesOf notedErrorsCount tree fun _ => true).getLast? = false ∧
      ¬ ExactStages Sample.wordCharacters ⟨notedErrorsCount, Sample.alphabet.quote⟩ tree
        (stagesOf notedErrorsCount tree fun _ => true) (scan Sample.alphabet (runes notedErrorsCount)) := by
  have hparse := @Sample.parse_parsed notedErrorsCount (by decide +kernel)
  obtain ⟨q, hq, -⟩ := @Sample.exists_of_compilesTo (Sample.parsed notedErrorsCount) (fun _ => true)
    (by decide +kernel)
  have hlast : (Sample.parsed notedErrorsCount).stages.getLast?.map isSummary = some true := by
    decide +kernel
  have hends : endsInSummarize Sample.wordCharacters notedErrorsCount
      (stagesOf notedErrorsCount (Sample.parsed notedErrorsCount) fun _ => true).getLast? = false := by
    decide +kernel
  refine ⟨_, q, hparse, hq, hlast, hends, fun hexact => ?_⟩
  have hsame := hexact.ends
  simp [hends, hlast] at hsame

end Queries

end SolidTrace.LogQuery
