import SolidTrace.LogQuery.ScanReads

/-!
# Where tokens are

The tokens of a text, one after another, each after a gap of spaces and whole comments. What a text is
read to does not depend on what comes after, so long as that breaks its last token off: another text
can take its place.
-/

namespace SolidTrace.LogQuery

open Scanner

section Sizes

/-- An empty text has no bytes. -/
@[simp] theorem Text.size_nil : Text.size [] = 0 := rfl

/-- A text has the bytes of its first character and of the rest. -/
@[simp] theorem Text.size_cons (r : Rune) (text : Text) :
    Text.size (r :: text) = r.bytes.length + Text.size text := rfl

/-- Two texts have the bytes of each. -/
@[simp] theorem Text.size_append (a b : Text) : Text.size (a ++ b) = a.size + b.size := by
  simp [Text.size]

/-- Every character has a byte. -/
theorem Rune.size_pos (r : Rune) : 0 < r.bytes.length := by
  cases r with
  | char c => exact List.length_pos_of_ne_nil String.utf8EncodeChar_ne_nil
  | broken byte => exact Nat.one_pos

end Sizes

section Gaps

/-- Spaces and whole comments: what is skipped whatever comes after. -/
def Gap (gap : Text) : Prop := ∀ text, skip false (gap ++ text) = skip false text

/-- No text is a gap. -/
theorem Gap.nil : Gap [] := fun _ => rfl

/-- Two gaps after one another are a gap. -/
theorem Gap.append {a b : Text} (ha : Gap a) (hb : Gap b) : Gap (a ++ b) := fun text => by
  rw [List.append_assoc, ha, hb]

/-- A space is a gap. -/
theorem Gap.space {r : Rune} (h : isSpace r.value = true) : Gap [r] := skip_space h

/-- What the skipping stops at comes after a gap. -/
theorem exists_skipped {b : Bool} {text : Text} {r : Rune} {rest : Text}
    (h : skip b text = r :: rest) : ∃ gap, text = gap ++ r :: rest ∧ (b = true → gap ≠ []) ∧
      ∀ t, skip b (gap ++ t) = skip false t := by
  induction text generalizing b with
  | nil => cases b <;> cases h
  | cons c text ih =>
    cases b with
    | true =>
      obtain ⟨gap, rfl, -, hgap⟩ := ih h
      exact ⟨c :: gap, rfl, fun _ => List.cons_ne_nil c gap, hgap⟩
    | false =>
      rw [skip_cons] at h
      split at h
      next hspace =>
        obtain ⟨gap, rfl, -, hgap⟩ := ih h
        exact ⟨c :: gap, rfl, nofun, fun t => (skip_space hspace _).trans (hgap t)⟩
      next hspace =>
        split at h
        next hcomment =>
          obtain ⟨gap, rfl, hne, hgap⟩ := ih h
          obtain ⟨d, gap', rfl⟩ := List.exists_cons_of_ne_nil (hne rfl)
          rw [List.cons_append, afterPrefix_comment] at hcomment
          refine ⟨c :: d :: gap', rfl, nofun, fun t => ?_⟩
          rw [List.cons_append, List.cons_append, skip_comment hspace (afterPrefix_comment.2 hcomment)]
          exact hgap t
        next hcomment => exact ⟨[], h, nofun, fun _ => rfl⟩

/-- What the skipping stops at is no space and starts no comment. -/
theorem skip_stops {b : Bool} {text : Text} {r : Rune} {rest : Text}
    (h : skip b text = r :: rest) :
    isSpace r.value = false ∧ (afterPrefix ['/', '/'] (r :: rest)).isSome = false := by
  induction text generalizing b with
  | nil => cases b <;> cases h
  | cons c text ih =>
    cases b with
    | true => exact ih h
    | false =>
      rw [skip_cons] at h
      split at h
      next => exact ih h
      next hspace =>
        split at h
        next => exact ih h
        next hcomment =>
          rw [List.cons.injEq] at h
          obtain ⟨rfl, rfl⟩ := h
          simp [hspace, hcomment]

/-- What is all skipped is skipped without the spaces at its end, too. -/
theorem skip_trimmed {b : Bool} {a s : Text} (hs : ∀ r ∈ s, isSpace r.value = true)
    (h : skip b (a ++ s) = []) : skip b a = [] := by
  induction a generalizing b with
  | nil => cases b <;> rfl
  | cons c a ih =>
    cases b with
    | true => exact ih h
    | false =>
      rw [List.cons_append, skip_cons] at h
      rw [skip_cons]
      split at h
      next hspace => rw [if_pos hspace, ih h]
      next hspace =>
        split at h
        next hcomment =>
          have ha : (afterPrefix ['/', '/'] (c :: a)).isSome = true := by
            cases a with
            | nil =>
              cases s with
              | nil => exact hcomment
              | cons d s =>
                have hd := hs d List.mem_cons_self
                rw [List.nil_append, afterPrefix_comment] at hcomment
                rw [hcomment.2] at hd
                cases hd
            | cons d a =>
              rw [List.cons_append, afterPrefix_comment] at hcomment
              exact afterPrefix_comment.2 hcomment
          rw [if_neg hspace, if_pos ha, ih h]
        next => cases h

/-- Skipping ends with the text, or at a pipe. -/
def EndsAtPipe (text : Text) : Prop := ∀ r ∈ (skip false text).head?, r.value = '|'

/-- A gap ends where a pipe may stand. -/
theorem Gap.endsAtPipe {gap : Text} (h : Gap gap) : EndsAtPipe gap := by
  have hnil := h []
  rw [List.append_nil] at hnil
  unfold EndsAtPipe
  rw [hnil]
  exact nofun

/-- What ends where a pipe may stand starts with a space, a slash or a pipe. -/
theorem EndsAtPipe.head {text : Text} (h : EndsAtPipe text) :
    ∀ r ∈ text.head?, isSpace r.value = true ∨ r.value = '/' ∨ r.value = '|' := by
  intro r hr
  cases text with
  | nil => cases hr
  | cons c text =>
    obtain rfl : c = r := by simpa using hr
    unfold EndsAtPipe at h
    rw [skip_cons] at h
    split at h
    next hspace => exact .inl hspace
    next hspace =>
      split at h
      next hcomment =>
        cases text with
        | nil => exact absurd hcomment (not_afterPrefix_comment c)
        | cons d text => exact .inr (.inl (afterPrefix_comment.1 hcomment).1)
      next => exact .inr (.inr (h c rfl))

/-- What ends a stage breaks any token off. -/
theorem EndsAtPipe.breaks {text : Text} (h : EndsAtPipe text) : Breaks text := by
  refine ⟨fun r hr => ?_, fun r hr hparen => ?_⟩
  · rcases h.head r hr with hspace | hslash | hpipe
    · simp [isBreak, hspace]
    · simp [isBreak, hslash]
    · simp [isBreak, hpipe]
  · have hblank : ∀ text : Text, EndsAtPipe text →
        EndsAtPipe (text.dropWhile fun r => r.value = ' ' || r.value = '\t') := by
      intro text h
      induction text with
      | nil => exact h
      | cons c text ih =>
        rw [List.dropWhile_cons]
        split
        next hc =>
          have hspace : isSpace c.value = true := by
            rcases (by simpa using hc : c.value = ' ' ∨ c.value = '\t') with hc | hc <;> rw [hc] <;> rfl
          unfold EndsAtPipe at h
          rw [skip_space hspace] at h
          exact ih h
        · exact h
    rcases (hblank text h).head r hr with hspace | hslash | hpipe
    · rw [hparen] at hspace
      cases hspace
    · rw [hparen] at hslash
      cases hslash
    · rw [hparen] at hpipe
      cases hpipe

end Gaps

section Reading

variable (abc : Alphabet)

/-- A text starts with a token, which is no mistake, and another text comes after it. -/
def IsToken (kind : TokenKind) (value : String) (rest : Text) : Text → Prop
  | [] => False
  | r :: w => isSpace r.value = false ∧
      (afterPrefix ['/', '/'] (r :: (w ++ rest))).isSome = false ∧
      token abc r (w ++ rest) = ⟨kind, value, rest⟩ ∧ kind ≠ .error

/-- A text, from a place, is read as some tokens, up to the end of the last one. What comes after it
is given. -/
inductive ScansTo (rest : Text) : ℕ → Text → List Token → Prop
  | nil {start : ℕ} : ScansTo rest start [] []
  | cons {start : ℕ} {gap w a : Text} {kind : TokenKind} {value : String} {ts : List Token}
      (hgap : Gap gap) (htoken : IsToken abc kind value (a ++ rest) w)
      (hreads : ScansTo rest (start + gap.size + w.size) a ts) :
      ScansTo rest start (gap ++ (w ++ a))
        (⟨kind, ⟨(start + gap.size : ℕ), (start + gap.size + w.size : ℕ)⟩, value⟩ :: ts)

end Reading

section Scanning

variable {abc : Alphabet}

/-- A token is spelled by something. -/
theorem IsToken.ne_nil {kind : TokenKind} {value : String} {rest w : Text}
    (h : IsToken abc kind value rest w) : w ≠ [] := by
  rintro rfl
  exact h

/-- A token is spelled by at least one byte. -/
theorem IsToken.size_pos {kind : TokenKind} {value : String} {rest w : Text}
    (h : IsToken abc kind value rest w) : 0 < w.size := by
  obtain ⟨r, w, rfl⟩ := List.exists_cons_of_ne_nil h.ne_nil
  rw [Text.size_cons]
  have hr := r.size_pos
  omega

/-- Nothing is skipped before a token. -/
theorem IsToken.skip {kind : TokenKind} {value : String} {rest w : Text}
    (h : IsToken abc kind value rest w) :
    Scanner.skip false (w ++ rest) = w ++ rest := by
  cases w with
  | nil => exact h.elim
  | cons r w => exact skip_stop h.1 h.2.1

/-- A token read from a text that skipping stops at. -/
theorem IsToken.of_token {b : Bool} {text rest : Text} {r : Rune} (hskip : Scanner.skip b text = r :: rest)
    (hkind : (token abc r rest).kind ≠ .error) :
    ∃ w : Text, r :: rest = w ++ (token abc r rest).rest ∧
      IsToken abc (token abc r rest).kind (token abc r rest).value (token abc r rest).rest w := by
  obtain ⟨hspace, hcomment⟩ := skip_stops hskip
  obtain ⟨w, last, hw, -⟩ := token_endsAt hspace hkind
  rw [List.append_cons] at hw
  refine ⟨w ++ [last], hw, ?_⟩
  cases hcons : w ++ [last] with
  | nil => simp at hcons
  | cons r' w' =>
    rw [hcons, List.cons_append, List.cons.injEq] at hw
    obtain ⟨rfl, hw⟩ := hw
    exact ⟨hspace, hw ▸ hcomment, by rw [← hw], hkind⟩

/-- An empty text has no tokens. -/
theorem ScansTo.eq_nil {rest a : Text} {start : ℕ} {ts : List Token} (h : ScansTo abc rest start a ts)
    (ha : a = []) : ts = [] := by
  cases h with
  | nil => rfl
  | cons _ htoken _ => exact absurd (List.append_eq_nil_iff.1 (List.append_eq_nil_iff.1 ha).2).1 htoken.ne_nil

/-- Texts that are scanned one after another are scanned together. -/
theorem ScansTo.append {rest a b : Text} {start : ℕ} {ts us : List Token}
    (ha : ScansTo abc (b ++ rest) start a ts) (hb : ScansTo abc rest (start + a.size) b us) :
    ScansTo abc rest start (a ++ b) (ts ++ us) := by
  induction ha with
  | nil => simpa using hb
  | @cons start gap w a kind value ts hgap htoken _ ih =>
    have hplace : start + (gap ++ (w ++ a)).size = start + gap.size + w.size + a.size := by
      simp only [Text.size_append]
      omega
    rw [hplace] at hb
    rw [List.append_assoc, List.append_assoc]
    exact .cons hgap (by rwa [List.append_assoc]) (ih hb)

/-- A text is split where its tokens are. -/
theorem ScansTo.split {rest c : Text} {start : ℕ} {ts us : List Token}
    (h : ScansTo abc rest start c (ts ++ us)) : ∃ a b, c = a ++ b ∧
      ScansTo abc (b ++ rest) start a ts ∧ ScansTo abc rest (start + a.size) b us := by
  induction ts generalizing start c with
  | nil => exact ⟨[], c, rfl, .nil, h⟩
  | cons tok ts ih =>
    cases h with
    | @cons _ gap w c kind value _ hgap htoken hreads =>
      obtain ⟨a, b, rfl, ha, hb⟩ := ih hreads
      refine ⟨gap ++ (w ++ a), b, by simp only [List.append_assoc], ?_, ?_⟩
      · exact .cons hgap (by rwa [← List.append_assoc]) ha
      · have hplace : start + (gap ++ (w ++ a)).size = start + gap.size + w.size + a.size := by
          simp only [Text.size_append]
          omega
        rwa [hplace]

/-- A slash alone is the token of that. -/
theorem token_slash {r : Rune} {rest : Text} (hr : r.value = '/') :
    (token abc r rest).kind = .slash := by
  have hstart : isIdentStart abc '/' = false := by
    simp [isIdentStart, abc.ascii '/' (by decide)]
  rw [token, if_neg (by simp [hr]), if_neg (by simp [hr, hstart]), if_neg (by simp [hr, Scanner.isDigit]),
    if_neg (by simp [hr, isQuote]), if_neg (by simp [hr])]
  simp [symbol, symbols, afterPrefix_cons, afterPrefix_nil, hr]

/-- What comes after can be exchanged for what breaks the last token off, unless the two would be a
comment. -/
theorem ScansTo.exchange {s s' a : Text} {start : ℕ} {ts : List Token} (h : ScansTo abc s start a ts)
    (hs : Breaks s')
    (hslash : ∀ r ∈ s'.head?, r.value = '/' → r ∈ s.head? ∨ ∀ tok ∈ ts.getLast?, tok.kind ≠ .slash) :
    ScansTo abc s' start a ts := by
  induction h with
  | nil => exact .nil
  | @cons start gap w a kind value ts hgap htoken hreads ih =>
    refine .cons hgap ?_ (ih fun r hr hvalue => (hslash r hr hvalue).imp_right fun h tok htok => ?_)
    · cases w with
      | nil => exact htoken.elim
      | cons r w =>
        obtain ⟨hspace, hcomment, hread, hkind⟩ := htoken
        rw [← List.append_assoc] at hread
        refine ⟨hspace, ?_, by rw [← List.append_assoc]; exact token_exchange hs hread hkind, hkind⟩
        by_contra hcomment'
        rw [← List.append_assoc] at hcomment hcomment'
        cases hwa : w ++ a with
        | cons c u =>
          rw [hwa, List.cons_append, Bool.eq_false_iff, ne_eq, afterPrefix_comment] at hcomment
          rw [hwa, List.cons_append, Bool.not_eq_false, afterPrefix_comment] at hcomment'
          exact hcomment hcomment'
        | nil =>
          rw [hwa] at hcomment hcomment' hread
          cases s' with
          | nil => exact hcomment' (eq_false_of_ne_true (not_afterPrefix_comment r))
          | cons d s' =>
            rw [List.nil_append, Bool.not_eq_false, afterPrefix_comment] at hcomment'
            rcases hslash d rfl hcomment'.2 with hsame | hlast
            · cases s with
              | nil => cases hsame
              | cons d' s =>
                obtain rfl : d' = d := by simpa using hsame
                rw [List.nil_append, Bool.eq_false_iff, ne_eq, afterPrefix_comment] at hcomment
                exact hcomment hcomment'
            · have ha : a = [] := (List.append_eq_nil_iff.1 hwa).2
              have hts : ts = [] := hreads.eq_nil ha
              obtain ⟨rfl, rfl⟩ := And.intro ha hts
              have htoken := @token_slash abc _ ([] ++ s) hcomment'.1
              rw [hread] at htoken
              exact hlast _ rfl htoken
    · cases ts with
      | nil => cases htok
      | cons tok' ts => exact h tok (by simpa using htok)

end Scanning

section TokensOf

variable {abc : Alphabet}

/-- A text, from a place, is all read as some tokens, with spaces and comments after the last one. -/
def TokensOf (abc : Alphabet) (start : ℕ) (text : Text) (ts : List Token) : Prop :=
  ∃ a rest, text = a ++ rest ∧ skip false rest = [] ∧ ScansTo abc rest start a ts

/-- A text and the rest of it are scanned together. -/
theorem TokensOf.append {start : ℕ} {a b : Text} {ts us : List Token} (ha : ScansTo abc b start a ts)
    (hb : TokensOf abc (start + a.size) b us) : TokensOf abc start (a ++ b) (ts ++ us) := by
  obtain ⟨c, rest, rfl, hrest, hc⟩ := hb
  exact ⟨a ++ c, rest, (List.append_assoc a c rest).symm, hrest, ha.append hc⟩

/-- A text is split where its tokens are, the last part to its end. -/
theorem TokensOf.split {start : ℕ} {text : Text} {ts us : List Token}
    (h : TokensOf abc start text (ts ++ us)) : ∃ a b, text = a ++ b ∧ ScansTo abc b start a ts ∧
      TokensOf abc (start + a.size) b us := by
  obtain ⟨c, rest, rfl, hrest, hc⟩ := h
  obtain ⟨a, b, rfl, ha, hb⟩ := hc.split
  exact ⟨a, b ++ rest, List.append_assoc a b rest, ha, b, rest, rfl, hrest, hb⟩

/-- What is scanned has no error among its tokens. -/
theorem ScansTo.ne_error {rest a : Text} {start : ℕ} {ts : List Token} (h : ScansTo abc rest start a ts) :
    ∀ tok ∈ ts, tok.kind ≠ .error := by
  induction h with
  | nil => exact nofun
  | @cons _ _ w _ _ _ _ _ htoken _ ih =>
    intro tok htok
    rcases List.mem_cons.1 htok with rfl | htok
    · cases w with
      | nil => exact htoken.elim
      | cons r w => exact htoken.2.2.2
    · exact ih tok htok

/-- The tokens of a text have no error among them. -/
theorem TokensOf.ne_error {start : ℕ} {text : Text} {ts : List Token}
    (h : TokensOf abc start text ts) : ∀ tok ∈ ts, tok.kind ≠ .error := by
  obtain ⟨a, rest, -, -, hreads⟩ := h
  exact hreads.ne_error

/-- Scanning one more token, after a gap. -/
theorem scanFrom_cons {n start : ℕ} {gap w rest : Text} {kind : TokenKind} {value : String}
    (hgap : Gap gap) (htoken : IsToken abc kind value rest w) :
    scanFrom abc (n + 1) start (gap ++ (w ++ rest)) =
      ⟨kind, ⟨(start + gap.size : ℕ), (start + gap.size + w.size : ℕ)⟩, value⟩ ::
        scanFrom abc n (start + gap.size + w.size) rest := by
  cases w with
  | nil => exact htoken.elim
  | cons r w =>
    have hskip : skipSpaceAndComments (gap ++ (r :: w ++ rest)) = r :: (w ++ rest) :=
      (hgap _).trans htoken.skip
    obtain ⟨-, -, hread, -⟩ := htoken
    have hstart : start + ((gap ++ (r :: w ++ rest)).size - Text.size (r :: (w ++ rest))) =
        start + gap.size := by
      simp only [Text.size_append, Text.size_cons]
      omega
    have hstop : start + gap.size + (Text.size (r :: (w ++ rest)) - rest.size) =
        start + gap.size + Text.size (r :: w) := by
      simp only [Text.size_append, Text.size_cons]
      omega
    rw [scanFrom, hskip]
    simp only [hread, hstart, hstop]

/-- The scanner gives a text's tokens, unless it gives a mistake. -/
theorem scanFrom_iff {n start : ℕ} {text : Text} {ts : List Token} (hn : text.size ≤ n) :
    (scanFrom abc n start text = ts ∧ ∀ tok ∈ ts, tok.kind ≠ .error) ↔
      TokensOf abc start text ts := by
  constructor
  · rintro ⟨rfl, herror⟩
    induction n generalizing start text with
    | zero =>
      cases text with
      | nil => exact ⟨[], [], rfl, rfl, .nil⟩
      | cons r text =>
        rw [Text.size_cons] at hn
        have hr := r.size_pos
        omega
    | succ n ih =>
      cases hskip : skipSpaceAndComments text with
      | nil =>
        rw [scanFrom, hskip]
        exact ⟨[], text, rfl, hskip, .nil⟩
      | cons r rest =>
        have hkind : (token abc r rest).kind ≠ .error := by
          rw [scanFrom, hskip] at herror
          exact herror _ List.mem_cons_self
        obtain ⟨w, hw, htoken⟩ := IsToken.of_token hskip hkind
        obtain ⟨gap, rfl, -, hgap⟩ := exists_skipped hskip
        rw [hw, scanFrom_cons hgap htoken] at herror ⊢
        have hsize : (token abc r rest).rest.size ≤ n := by
          have hw' := htoken.size_pos
          rw [hw, Text.size_append, Text.size_append] at hn
          omega
        obtain ⟨a, after, hafter, hskipped, hreads⟩ :=
          @ih (start + gap.size + w.size) _ hsize fun tok htok =>
            herror tok (List.mem_cons_of_mem _ htok)
        refine ⟨gap ++ (w ++ a), after, ?_, hskipped, .cons hgap (hafter ▸ htoken) hreads⟩
        rw [hafter, List.append_assoc, List.append_assoc]
  · intro h
    refine ⟨?_, h.ne_error⟩
    obtain ⟨a, rest, rfl, hrest, hreads⟩ := h
    induction hreads generalizing n with
    | nil =>
      cases n with
      | zero => rfl
      | succ n => rw [scanFrom, skipSpaceAndComments, List.nil_append, hrest]
    | @cons start gap w a kind value ts hgap htoken _ ih =>
      simp only [Text.size_append] at hn
      have hw := htoken.size_pos
      obtain ⟨m, rfl⟩ := Nat.exists_eq_add_of_le' (show 1 ≤ n by omega)
      rw [List.append_assoc, List.append_assoc, scanFrom_cons hgap htoken, ih]
      simp only [Text.size_append]
      omega

/-- A scan without errors gives the tokens of the text. -/
theorem scan_iff {text : Text} {ts : List Token} :
    (scan abc text = ts ∧ ∀ tok ∈ ts, tok.kind ≠ .error) ↔ TokensOf abc 0 text ts :=
  scanFrom_iff le_rfl

end TokensOf

end SolidTrace.LogQuery
