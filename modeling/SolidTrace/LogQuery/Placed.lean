import SolidTrace.Lib.Utf8
import SolidTrace.LogQuery.ScanPlaces

/-!
# Tokens in their places

The places of a text's tokens: one after another, and the same but for a shift when the text stands
after another one. A part of a text is its bytes at a span.
-/

namespace SolidTrace.LogQuery

section Parts

/-- A text has as many bytes as its characters take. -/
theorem length_bytes (text : String) : (Utf8.bytes text).length = (runes text).size := by
  rw [Utf8.bytes_eq_flatMap, List.length_flatMap]
  simp [runes, Text.size, Rune.bytes, Function.comp_def]

/-- The characters of two texts are those of each. -/
@[simp] theorem runes_append (a b : String) : runes (a ++ b) = runes a ++ runes b := by
  simp [runes]

/-- A text is known by its characters. -/
theorem runes_injective : Function.Injective runes := by
  intro a b h
  have hmap := List.map_injective_iff.2 (fun c d hcd => Rune.char.inj hcd : Function.Injective Rune.char)
  exact String.toList_injective (hmap h)

/-- A text is that of its own characters. -/
@[simp] theorem string_runes (text : String) : Text.string (runes text) = text := by
  simp [Text.string, runes, Function.comp_def, Rune.value]

/-- A part of a text's runes is a part of the text. -/
theorem exists_of_runes_append {text : String} {a b : Text} (h : runes text = a ++ b) :
    ∃ pre post, text = pre ++ post ∧ runes pre = a ∧ runes post = b := by
  obtain ⟨as, bs, htext, rfl, rfl⟩ := List.map_eq_append_iff.1 h
  refine ⟨String.ofList as, String.ofList bs, ?_, by simp [runes], by simp [runes]⟩
  rw [← String.ofList_append, ← htext, String.ofList_toList]

/-- A place of a source is a slice of its text. -/
theorem Source.at_eq_slice (src : Source) {start stop : ℕ} :
    src.at ⟨start, stop⟩ = Utf8.slice src.text start stop := by
  have hlength : ((stop : ℤ) - start).toNat = stop - start := by omega
  rw [Source.at, Utf8.slice, Utf8.text, Utf8.bytes]
  simp only [Int.toNat_natCast, hlength]

/-- A part of a text is at its place. -/
theorem Source.at_part {src : Source} {pre part post : String} (h : src.text = pre ++ part ++ post) :
    src.at ⟨(runes pre).size, ((runes pre).size + (runes part).size : ℕ)⟩ = part := by
  rw [Source.at_eq_slice, h, ← length_bytes, ← length_bytes, Utf8.slice_part]

/-- What lies in a part of two texts is the same in both. -/
theorem Source.at_shared {src src' : Source} {pre pre' part post post' : String} {span : Span}
    (h : src.text = pre ++ part ++ post) (h' : src'.text = pre' ++ part ++ post')
    (hstart : (runes pre).size ≤ span.start) (hspan : span.start ≤ span.stop)
    (hstop : span.stop ≤ ((runes pre).size + (runes part).size : ℕ)) :
    src'.at ⟨span.start + ((runes pre').size - (runes pre).size),
      span.stop + ((runes pre').size - (runes pre).size)⟩ = src.at span := by
  obtain ⟨start, stop⟩ := span
  obtain ⟨a, rfl⟩ : ∃ a : ℕ, start = ((runes pre).size + a : ℕ) :=
    ⟨(start - (runes pre).size).toNat, by simp only at hstart; omega⟩
  obtain ⟨b, rfl⟩ : ∃ b : ℕ, stop = ((runes pre).size + b : ℕ) :=
    ⟨(stop - (runes pre).size).toNat, by simp only at hstart hspan; omega⟩
  have hb : b ≤ (Utf8.bytes part).length := by
    rw [length_bytes]
    simp only at hstop
    omega
  have hstart' : (((runes pre).size + a : ℕ) : ℤ) + ((runes pre').size - (runes pre).size) =
      ((runes pre').size + a : ℕ) := by omega
  have hstop' : (((runes pre).size + b : ℕ) : ℤ) + ((runes pre').size - (runes pre).size) =
      ((runes pre').size + b : ℕ) := by omega
  rw [hstart', hstop', Source.at_eq_slice, Source.at_eq_slice, h, h', ← length_bytes, ← length_bytes,
    Utf8.slice_within pre' part post' hb, Utf8.slice_within pre part post hb]

end Parts

section Shifts

/-- A span of a text, when so many more bytes come before the text. The null span stays. -/
def Span.shift (d : ℤ) (s : Span) : Span := if s = .null then s else ⟨s.start + d, s.stop + d⟩

def Token.shift (d : ℤ) (tok : Token) : Token := { tok with span := tok.span.shift d }

/-- A shifted token is of the same kind. -/
@[simp] theorem Token.shift_kind (d : ℤ) (tok : Token) : (tok.shift d).kind = tok.kind := rfl

/-- A shifted token has the same value. -/
@[simp] theorem Token.shift_value (d : ℤ) (tok : Token) : (tok.shift d).value = tok.value := rfl

/-- A shifted token has a shifted span. -/
@[simp] theorem Token.shift_span (d : ℤ) (tok : Token) : (tok.shift d).span = tok.span.shift d := rfl

/-- A span is valid when it starts at 0 or later and does not stop before that. -/
theorem Span.isValid_iff {s : Span} : s.isValid = true ↔ 0 ≤ s.start ∧ s.start ≤ s.stop := by
  simp [Span.isValid]

/-- A span in the text is shifted at both ends. -/
theorem Span.shift_nonneg {d : ℤ} {s : Span} (h : 0 ≤ s.start) : s.shift d = ⟨s.start + d, s.stop + d⟩ := by
  refine if_neg ?_
  rintro rfl
  exact absurd h (by decide)

variable {abc : Alphabet}

/-- The tokens of a text that stands elsewhere are in the same places of it. -/
theorem ScansTo.shift {rest a : Text} {start : ℕ} {ts : List Token} (h : ScansTo abc rest start a ts)
    (start' : ℕ) : ScansTo abc rest start' a (ts.map (Token.shift (start' - start))) := by
  induction h generalizing start' with
  | nil => exact .nil
  | @cons start gap w a kind value ts hgap htoken _ ih =>
    have hspan : (Token.shift (start' - start)
        ⟨kind, ⟨(start + gap.size : ℕ), (start + gap.size + w.size : ℕ)⟩, value⟩) =
        ⟨kind, ⟨(start' + gap.size : ℕ), (start' + gap.size + w.size : ℕ)⟩, value⟩ := by
      rw [Token.shift, Span.shift_nonneg (by simp only; omega)]
      simp only [Token.mk.injEq, Span.mk.injEq, true_and, and_true]
      omega
    have hrest := ih (start' + gap.size + w.size)
    have hshift : ((start' + gap.size + w.size : ℕ) : ℤ) - (start + gap.size + w.size : ℕ) =
        start' - start := by omega
    rw [hshift] at hrest
    rw [List.map_cons, hspan]
    exact .cons hgap htoken hrest

/-- The tokens of a text are shifted with its start. -/
theorem TokensOf.shift {start : ℕ} {text : Text} {ts : List Token} (h : TokensOf abc start text ts)
    (start' : ℕ) : TokensOf abc start' text (ts.map (Token.shift (start' - start))) := by
  obtain ⟨a, rest, htext, hrest, hreads⟩ := h
  exact ⟨a, rest, htext, hrest, hreads.shift start'⟩

end Shifts

section Places

/-- Tokens that lie one after another between two places. -/
def Placed : ℤ → List Token → ℤ → Prop
  | lo, [], hi => lo ≤ hi
  | lo, tok :: ts, hi => lo ≤ tok.span.start ∧ tok.span.start < tok.span.stop ∧
      Placed tok.span.stop ts hi

/-- What tokens are placed within is not upside down. -/
theorem Placed.le {lo hi : ℤ} {ts : List Token} (h : Placed lo ts hi) : lo ≤ hi := by
  induction ts generalizing lo with
  | nil => exact h
  | cons tok ts ih =>
    have hrest := ih h.2.2
    have hlo := h.1
    have htok := h.2.1
    omega

/-- Tokens placed from a place on are placed from an earlier one on. -/
theorem Placed.mono {lo lo' hi : ℤ} {ts : List Token} (h : Placed lo ts hi) (hlo : lo' ≤ lo) :
    Placed lo' ts hi := by
  cases ts with
  | nil => exact le_trans hlo h
  | cons tok ts => exact ⟨le_trans hlo h.1, h.2⟩

/-- Two runs of tokens are placed one after the other. -/
theorem placed_append {lo hi : ℤ} {ts us : List Token} :
    Placed lo (ts ++ us) hi ↔ ∃ mid, Placed lo ts mid ∧ Placed mid us hi := by
  induction ts generalizing lo with
  | nil =>
    constructor
    · exact fun h => ⟨lo, le_refl lo, h⟩
    · rintro ⟨mid, hlo, h⟩
      exact h.mono hlo
  | cons tok ts ih =>
    rw [List.cons_append, Placed, ih]
    constructor
    · rintro ⟨hlo, htok, mid, hts, hus⟩
      exact ⟨mid, ⟨hlo, htok, hts⟩, hus⟩
    · rintro ⟨mid, ⟨hlo, htok, hts⟩, hus⟩
      exact ⟨hlo, htok, mid, hts, hus⟩

/-- Each of the tokens is placed within the bounds. -/
theorem Placed.mem {lo hi : ℤ} {ts : List Token} (h : Placed lo ts hi) {tok : Token} (htok : tok ∈ ts) :
    lo ≤ tok.span.start ∧ tok.span.start < tok.span.stop ∧ tok.span.stop ≤ hi := by
  induction ts generalizing lo with
  | nil => cases htok
  | cons tok' ts ih =>
    rcases List.mem_cons.1 htok with rfl | htok
    · exact ⟨h.1, h.2.1, h.2.2.le⟩
    · obtain ⟨hlo, hspan, hhi⟩ := ih h.2.2 htok
      have hlo' := h.1
      have htok' := h.2.1
      exact ⟨by omega, hspan, hhi⟩

/-- Each of tokens placed from 0 on has a valid span. -/
theorem Placed.valid {lo hi : ℤ} {ts : List Token} (h : Placed lo ts hi) (hlo : 0 ≤ lo) {tok : Token}
    (htok : tok ∈ ts) : tok.span.isValid = true := by
  obtain ⟨hstart, hspan, -⟩ := h.mem htok
  exact Span.isValid_iff.2 ⟨by omega, hspan.le⟩

variable {abc : Alphabet}

/-- Scanned tokens are placed within their text. -/
theorem ScansTo.placed {rest a : Text} {start : ℕ} {ts : List Token} (h : ScansTo abc rest start a ts) :
    Placed start ts (start + a.size : ℕ) := by
  induction h with
  | nil => simp [Placed]
  | @cons start gap w a kind value ts _ htoken _ ih =>
    have hw := htoken.size_pos
    have hstop : start + gap.size + w.size + a.size = start + (gap ++ (w ++ a)).size := by
      simp only [Text.size_append]
      omega
    rw [hstop] at ih
    exact ⟨by simp only; omega, by simp only; omega, ih⟩

/-- The tokens of a text are placed within it. -/
theorem TokensOf.placed {start : ℕ} {text : Text} {ts : List Token} (h : TokensOf abc start text ts) :
    Placed start ts (start + text.size : ℕ) := by
  obtain ⟨a, rest, rfl, -, hreads⟩ := h
  have ha := hreads.placed
  have hle : ((start + a.size : ℕ) : ℤ) ≤ (start + (a ++ rest).size : ℕ) := by
    rw [Text.size_append]
    omega
  rw [← List.append_nil ts, placed_append]
  exact ⟨_, ha, hle⟩

/-- A text that is read ends with its last token. -/
theorem ScansTo.last_stop {rest a : Text} {start : ℕ} {ts : List Token} (h : ScansTo abc rest start a ts) :
    ∀ tok ∈ ts.getLast?, tok.span.stop = (start + a.size : ℕ) := by
  induction h with
  | nil => exact nofun
  | @cons start gap w a kind value ts _ _ hreads ih =>
    intro tok htok
    have hstop : start + gap.size + w.size + a.size = start + (gap ++ (w ++ a)).size := by
      simp only [Text.size_append]
      omega
    rw [← hstop]
    cases ts with
    | nil =>
      obtain rfl : _ = tok := by simpa using htok
      cases hreads
      rfl
    | cons tok' ts => exact ih tok (by simpa using htok)

end Places

end SolidTrace.LogQuery
