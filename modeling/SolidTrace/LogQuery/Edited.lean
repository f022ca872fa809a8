import Mathlib.Data.List.TakeWhile
import SolidTrace.LogQuery.FieldValues
import SolidTrace.LogQuery.MovedStages
import SolidTrace.LogQuery.Shifted

/-!
# Editing a Query's text

Console and the event store edit a Query as text: they write a stage or a source between two parts of
it. The parts' tokens stay, in other places, and the stages written with them compile alike.
-/

namespace SolidTrace.LogQuery

open Scanner

section Compiling

/-- Compile a Query's text. -/
def compileText (abc : Alphabet) (env : Env) (text : String) : Except Error Query :=
  match parse abc text with
  | .error err => .error err
  | .ok tree => compileQuery { env with text } tree

variable {abc : Alphabet} {env : Env} {text : String} {q : Query}

/-- A text compiles when it is parsed and its Query compiles. -/
theorem compileText_eq_ok_iff : compileText abc env text = .ok q ↔
    ∃ tree, parse abc text = .ok tree ∧ compileQuery { env with text } tree = .ok q := by
  unfold compileText
  cases parse abc text with
  | error err => simp
  | ok tree => simp

/-- The name that a Query's text gives its source, if it has one. -/
def sourceName (abc : Alphabet) (text : String) : Option String :=
  (parse abc text).toOption.bind fun tree => tree.source.map Syntax.Ident.name

/-- The source that is named is the one parsed. -/
theorem sourceName_of_parse {tree : Syntax.Query} (h : parse abc text = .ok tree) :
    sourceName abc text = tree.source.map Syntax.Ident.name := by
  rw [sourceName, h]
  rfl

end Compiling

section Spaces

variable {abc : Alphabet} {start : ℕ} {ts : List Token}

/-- A text that is read ends with no space. -/
theorem ScansTo.endsAt {rest a : Text} (h : ScansTo abc rest start a ts) (hts : ts ≠ []) :
    EndsAt (a ++ rest) rest := by
  induction h with
  | nil => exact absurd rfl hts
  | @cons start gap w a kind value ts _ htoken hreads ih =>
    cases w with
    | nil => exact htoken.elim
    | cons r w =>
      obtain ⟨hspace, -, hread, hkind⟩ := htoken
      have hends := @token_endsAt abc r (w ++ (a ++ rest)) hspace (by rwa [hread])
      rw [hread] at hends
      have htext : gap ++ (r :: w ++ a) ++ rest = gap ++ (r :: (w ++ (a ++ rest))) := by simp
      have hafter : EndsAt (a ++ rest) rest ∨ a ++ rest = rest := by
        cases ts with
        | nil =>
          cases hreads
          exact .inr rfl
        | cons tok ts => exact .inl (ih (List.cons_ne_nil tok ts))
      obtain ⟨b, last, heq, hlast⟩ : EndsAt (r :: (w ++ (a ++ rest))) rest := by
        rcases hafter with hafter | hafter
        · exact hends.trans hafter
        · rwa [hafter] at hends ⊢
      exact ⟨gap ++ b, last, by rw [htext, heq, List.append_assoc], hlast⟩

/-- A text without tokens is empty where nothing is skipped. -/
theorem ScansTo.nil_text {rest a : Text} (h : ScansTo abc rest start a []) : a = [] := by
  cases h
  rfl

/-- Spaces are skipped. -/
theorem skip_spaces {s : Text} (hs : ∀ r ∈ s, isSpace r.value = true) (text : Text) :
    skip false (s ++ text) = skip false text := by
  induction s with
  | nil => rfl
  | cons r s ih =>
    rw [List.forall_mem_cons] at hs
    rw [List.cons_append, skip_space hs.1, ih hs.2]

/-- Spaces before a text move its tokens. -/
theorem scanFrom_spaces {s : Text} (hs : ∀ r ∈ s, isSpace r.value = true) (n : ℕ) (a : Text) :
    scanFrom abc n start (s ++ a) = scanFrom abc n (start + s.size) a := by
  cases n with
  | zero => rfl
  | succ n =>
    have hskip : skipSpaceAndComments (s ++ a) = skipSpaceAndComments a := skip_spaces hs a
    rw [scanFrom, scanFrom, hskip]
    cases hread : skipSpaceAndComments a with
    | nil => rfl
    | cons r rest =>
      obtain ⟨gap, rfl, -, -⟩ := exists_skipped hread
      have hplace : start + ((s ++ (gap ++ r :: rest)).size - Text.size (r :: rest)) =
          start + s.size + ((gap ++ r :: rest).size - Text.size (r :: rest)) := by
        simp only [Text.size_append]
        omega
      simp only [hplace]

/-- A text after spaces has its tokens after them. -/
theorem tokensOf_spaces {s a : Text} (hs : ∀ r ∈ s, isSpace r.value = true) :
    TokensOf abc start (s ++ a) ts ↔ TokensOf abc (start + s.size) a ts := by
  have hsize : a.size ≤ (s ++ a).size := by simp
  rw [← scanFrom_iff le_rfl, scanFrom_spaces hs, scanFrom_iff hsize]

/-- A text before spaces has the tokens of both. -/
theorem TokensOf.of_spaces_after {s a : Text} (hs : ∀ r ∈ s, isSpace r.value = true)
    (h : TokensOf abc start (a ++ s) ts) : TokensOf abc start a ts := by
  obtain ⟨c, rest, htext, hrest, hreads⟩ := h
  -- The last token ends before the spaces.
  have hpart : ∃ m, a = c ++ m ∧ rest = m ++ s := by
    rcases List.append_eq_append_iff.1 htext with ⟨m, rfl, hsm⟩ | ⟨m, rfl, hrm⟩
    · rcases List.eq_nil_or_concat' m with rfl | ⟨m, last, rfl⟩
      · exact ⟨[], by simp, by simpa using hsm.symm⟩
      · cases ts with
        | nil => simpa using hreads.nil_text
        | cons tok ts =>
          obtain ⟨b, last', heq, hlast⟩ := hreads.endsAt (List.cons_ne_nil tok ts)
          have hsame : a ++ m ++ [last] = b ++ [last'] := by
            have hboth : a ++ m ++ [last] ++ rest = b ++ [last'] ++ rest := by simpa using heq
            exact List.append_cancel_right hboth
          obtain ⟨-, hsingle⟩ := List.append_inj' hsame rfl
          obtain rfl : last = last' := List.head_eq_of_cons_eq hsingle
          have hspace := hs last (by rw [hsm]; simp)
          rw [hspace] at hlast
          cases hlast
    · exact ⟨m, rfl, hrm⟩
  obtain ⟨m, rfl, rfl⟩ := hpart
  have hm := skip_trimmed hs hrest
  have hends : EndsAtPipe m := by
    rw [EndsAtPipe, hm]
    exact nofun
  refine ⟨c, m, rfl, hm, hreads.exchange hends.breaks fun r hr _ => .inl ?_⟩
  cases m with
  | nil => cases hr
  | cons d m => exact hr

/-- What trimming takes from a text is spaces. -/
theorem trimSpace_parts (text : Text) : ∃ before after, text = before ++ trimSpace text ++ after ∧
    (∀ r ∈ before, isSpace r.value = true) ∧ ∀ r ∈ after, isSpace r.value = true := by
  have hspaces : ∀ text : Text, ∀ r ∈ text.takeWhile fun r => isSpace r.value, isSpace r.value = true :=
    fun text r hr => List.mem_takeWhile_imp (p := fun r : Rune => isSpace r.value) hr
  let left := text.dropWhile fun r => isSpace r.value
  refine ⟨text.takeWhile fun r => isSpace r.value, (left.reverse.takeWhile fun r => isSpace r.value).reverse, ?_,
    hspaces text, fun r hr => hspaces _ r (List.mem_reverse.1 hr)⟩
  rw [trimSpace, List.append_assoc, ← List.reverse_append, List.takeWhile_append_dropWhile, List.reverse_reverse,
    List.takeWhile_append_dropWhile]

/-- A pipe between two parts of a text is a token of its own. -/
theorem TokensOf.piped (before after : Text) {text : Text} (hbefore : ∀ r ∈ before, isSpace r.value = true)
    (hafter : ∀ r ∈ after, isSpace r.value = true)
    (h : TokensOf abc (start + (before ++ runes "|" ++ after).size) text ts) :
    ∃ pipe, TokensOf abc start (before ++ runes "|" ++ after ++ text) (⟨.pipe, pipe, ""⟩ :: ts) := by
  obtain ⟨pipe, hpipe⟩ : ∃ pipe, ScansTo abc (after ++ text) (start + before.size) (runes "|") [⟨.pipe, pipe, ""⟩] :=
    ⟨_, .cons Gap.nil (isToken_symbol (p := .pipe) rfl _) .nil⟩
  have hplace : start + (before ++ runes "|" ++ after).size =
      start + before.size + (runes "|").size + after.size := by
    simp only [Text.size_append]
    omega
  rw [hplace, ← tokensOf_spaces hafter] at h
  refine ⟨pipe, ?_⟩
  rw [List.append_assoc, List.append_assoc, tokensOf_spaces hbefore]
  exact TokensOf.append hpipe h

/-- What a text starts with is read first. -/
theorem TokensOf.starts_with_pipe {text : Text} (h : TokensOf abc start (runes "|" ++ text) ts) :
    ∃ pipe rest, ts = ⟨.pipe, pipe, ""⟩ :: rest := by
  obtain ⟨rfl, -⟩ := (scanFrom_iff le_rfl).2 h
  have hread := @scanFrom_cons abc (text.size) start [] _ text _ _ Gap.nil (isToken_symbol (p := .pipe) rfl text)
  have hsize : (runes "|" ++ text).size = text.size + 1 := by
    rw [Text.size_append, Nat.add_comm]
    rfl
  rw [hsize]
  exact ⟨_, _, hread⟩

/-- A pipe breaks what is before it off. -/
theorem ScansTo.before_pipe {s a : Text} (h : ScansTo abc s start a ts) (before text : Text)
    (hbefore : ∀ r ∈ before, isSpace r.value = true) :
    ScansTo abc (before ++ runes "|" ++ text) start a ts := by
  have hends : EndsAtPipe (before ++ runes "|" ++ text) := by
    intro r hr
    rw [List.append_assoc, skip_spaces hbefore] at hr
    obtain rfl : Rune.char '|' = r := Option.some_inj.1 hr
    rfl
  refine h.exchange hends.breaks fun r hr hslash => ?_
  cases before with
  | nil =>
    obtain rfl : Rune.char '|' = r := Option.some_inj.1 hr
    cases hslash
  | cons c before =>
    obtain rfl : c = r := Option.some_inj.1 hr
    have hspace := hbefore c List.mem_cons_self
    rw [hslash] at hspace
    cases hspace

end Spaces

section Parts

variable {abc : Alphabet}

/-- The tokens of a part of a text stand in any text that has the part. -/
theorem CopiedTo.of_part {src src' : Source} {pre part post pre' post' : String} {ts : List Token}
    (h : src.text = pre ++ part ++ post) (h' : src'.text = pre' ++ part ++ post')
    (hts : TokensOf abc (runes pre).size (runes part) ts) :
    CopiedTo src src' ((runes pre').size - (runes pre).size) ts := by
  have hplaced := hts.placed
  refine ⟨(runes pre).size, _, by omega, by omega, hplaced, fun tok htok => ?_⟩
  obtain ⟨hstart, hspan, hstop⟩ := hplaced.mem htok
  rw [Span.shift_nonneg (by omega)]
  exact Source.at_shared h h' hstart hspan.le hstop

end Parts

section Heads

/-- Stages and the same ones elsewhere have the same head and tail. -/
theorem forall₂_heads {stages stages' : List Syntax.Stage} (h : List.Forall₂ Syntax.Stage.MovesTo stages stages') :
    List.Forall₂ Syntax.Stage.MovesTo (stages.takeWhile isHead) (stages'.takeWhile isHead) ∧
      List.Forall₂ Syntax.Stage.MovesTo (stages.dropWhile isHead) (stages'.dropWhile isHead) := by
  induction h with
  | nil => exact ⟨.nil, .nil⟩
  | @cons s s' rest rest' hs hrest ih =>
    have hsame := MovesTo.isHead hs
    cases hhead : isHead s with
    | true =>
      rw [List.takeWhile_cons_of_pos hhead, List.takeWhile_cons_of_pos (hsame.trans hhead),
        List.dropWhile_cons_of_pos hhead, List.dropWhile_cons_of_pos (hsame.trans hhead)]
      exact ⟨.cons hs ih.1, ih.2⟩
    | false =>
      have hno : ¬ isHead s = true := by simp [hhead]
      have hno' : ¬ isHead s' = true := by simp [hsame, hhead]
      rw [List.takeWhile_cons_of_neg hno, List.takeWhile_cons_of_neg hno', List.dropWhile_cons_of_neg hno,
        List.dropWhile_cons_of_neg hno']
      exact ⟨.nil, .cons hs hrest⟩

end Heads

end SolidTrace.LogQuery
