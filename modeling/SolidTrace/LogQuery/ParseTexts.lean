import SolidTrace.LogQuery.ParseQueryInverse
import SolidTrace.LogQuery.Placed
import SolidTrace.LogQuery.TokenTexts

/-!
# When a text parses

A text parses as a tree when its tokens are how the tree is written.
-/

namespace SolidTrace.LogQuery

section Parsing

variable {abc : Alphabet}

/-- A Query that is parsed has no error among its tokens. -/
theorem query_ne_error {src : Source} {ts : List Token} {tree : Syntax.Query}
    (h : Parser.query src ts = .ok tree) : ∀ tok ∈ ts, tok.kind ≠ .error := by
  unfold Parser.query at h
  cases hfind : ts.find? (·.kind = .error) with
  | some tok => simp [hfind] at h
  | none =>
    intro tok htok
    simpa using List.find?_eq_none.1 hfind tok htok

/-- Parsing inverts writing a tree's tokens as a text. -/
theorem parse_eq_ok_iff {text : String} {tree : Syntax.Query} : parse abc text = .ok tree ↔
    ∃ ts, spellsQuery ⟨text, abc.quote⟩ tree ts ∧ TokensOf abc 0 (runes text) ts := by
  constructor
  · intro h
    exact ⟨_, query_eq_ok_iff.1 h, scan_iff.1 ⟨rfl, query_ne_error h⟩⟩
  · rintro ⟨ts, hspells, htokens⟩
    obtain ⟨hscan, -⟩ := scan_iff.2 htokens
    rw [parse, hscan]
    exact query_eq_ok_iff.2 hspells

/-- The tokens of a text that is parsed spell the Query, and are those of the text. -/
theorem parse_tokens {text : String} {tree : Syntax.Query} (h : parse abc text = .ok tree) :
    spellsQuery ⟨text, abc.quote⟩ tree (scan abc (runes text)) ∧
      TokensOf abc 0 (runes text) (scan abc (runes text)) :=
  ⟨query_eq_ok_iff.1 h, scan_iff.1 ⟨rfl, query_ne_error h⟩⟩

end Parsing

section Heads

/-- The gap before the first token. -/
theorem ScansTo.skip_gap {abc : Alphabet} {rest text : Text} {start : ℕ} {tok : Token} {ts : List Token}
    (h : ScansTo abc rest start text (tok :: ts)) : ∃ gap a, text = gap ++ a ∧ Gap gap ∧
      ScansTo abc rest (start + gap.size) a (tok :: ts) ∧ tok.span.start = (start + gap.size : ℕ) := by
  cases h with
  | @cons _ gap w a kind value _ hgap htoken hreads =>
    refine ⟨gap, w ++ a, rfl, hgap, ?_, rfl⟩
    have hcons := @ScansTo.cons abc rest (start + gap.size) _ _ _ _ _ _ Gap.nil htoken (by simpa using hreads)
    simpa using hcons

/-- The first token, when the text starts with it. -/
theorem ScansTo.head {abc : Alphabet} {rest a : Text} {start : ℕ} {tok : Token} {ts : List Token}
    (h : ScansTo abc rest start a (tok :: ts)) (hstart : tok.span.start = start) :
    ∃ w b, a = w ++ b ∧ IsToken abc tok.kind tok.value (b ++ rest) w ∧
      tok.span.stop = (start + w.size : ℕ) ∧ ScansTo abc rest (start + w.size) b ts := by
  cases h with
  | @cons _ gap w b kind value _ _ htoken hreads =>
    have hgap : gap.size = 0 := by
      simp only at hstart
      omega
    have hnil : gap = [] := by
      cases gap with
      | nil => rfl
      | cons r gap =>
        have hr := r.size_pos
        rw [Text.size_cons] at hgap
        omega
    subst hnil
    exact ⟨w, b, rfl, htoken, by simp, by simpa using hreads⟩

end Heads

namespace Sample

/-- A letter or digit of ASCII is no space. -/
theorem isAlphanum_of_isSpace {c : Char} (h : isSpace c = true) : c.isAlphanum = false := by
  simp only [isSpace, List.mem_cons, List.not_mem_nil, or_false, Bool.or_eq_true, decide_eq_true_eq,
    Bool.and_eq_true] at h
  by_contra hword
  have hrange : (65 ≤ c.toNat → 90 < c.toNat) → (97 ≤ c.toNat → 122 < c.toNat) →
      48 ≤ c.toNat ∧ c.toNat ≤ 57 := by
    have halpha : c.isAlpha = (decide (c.val ≥ 'A'.val ∧ c.val ≤ 'Z'.val) ||
        (decide (c.val ≥ 'a'.val) && decide (c.val ≤ 'z'.val))) := rfl
    simpa [Char.isAlphanum, halpha, Char.isDigit, UInt32.le_iff_toNat_le] using hword
  omega

/-- The letters and digits of ASCII, for texts of no others. -/
def alphabet : Alphabet where
  isLetter := Char.isAlpha
  isDigit := Char.isDigit
  quote text := text
  ascii _ _ := ⟨rfl, rfl⟩
  space _ h := Bool.or_eq_false_iff.1 (isAlphanum_of_isSpace h)
  replacement := by decide

/-- The tree of a text that parses. -/
def parsed (text : String) : Syntax.Query := (parse alphabet text).toOption.getD ⟨none, []⟩

/-- A sample that is parsed is parsed as said. -/
theorem parse_parsed {text : String} (h : (parse alphabet text).isOk = true) :
    parse alphabet text = .ok (parsed text) := by
  unfold parsed
  cases hparse : parse alphabet text with
  | error e => simp [hparse, Except.isOk, Except.toBool] at h
  | ok tree => rfl

end Sample

end SolidTrace.LogQuery
