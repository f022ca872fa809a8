import SolidTrace.Lib.Tiles
import SolidTrace.LogQuery.ReadBytes

/-!
# Scanning covers a Query's bytes

Each token takes a byte or more, mistakes too, and only spaces and comments lie between one token and the
next.
-/

namespace SolidTrace.LogQuery

open Scanner

section Remains

/-- What is left of a text: its last bytes, of which no more are parts of no character in ASCII. -/
structure Remains (rest text : Text) : Prop where
  bytes : rest.bytes <:+ text.bytes
  proper : text.Proper → rest.Proper

/-- A text remains of itself. -/
theorem Remains.refl (text : Text) : Remains text text := ⟨List.suffix_rfl, id⟩

/-- What remains of what remains, remains of the whole. -/
theorem Remains.trans {a b c : Text} (hab : Remains a b) (hbc : Remains b c) : Remains a c :=
  ⟨hab.bytes.trans hbc.bytes, fun h => hab.proper (hbc.proper h)⟩

/-- A suffix remains. -/
theorem Remains.of_suffix {rest text : Text} (h : rest <:+ text) : Remains rest text := by
  obtain ⟨pre, rfl⟩ := h
  refine ⟨?_, fun hproper byte hbyte => hproper byte (List.mem_append_right pre hbyte)⟩
  rw [Text.bytes_append]
  exact List.suffix_append _ _

/-- What remains of a text remains of a longer one. -/
theorem Remains.cons {rest text : Text} (r : Rune) (h : Remains rest text) : Remains rest (r :: text) :=
  h.trans (.of_suffix (List.suffix_cons r text))

/-- What remains after a run is skipped remains. -/
theorem Remains.dropWhile {rest text : Text} (p : Rune → Bool) (h : Remains rest text) :
    Remains (rest.dropWhile p) text :=
  Remains.trans (.of_suffix (List.dropWhile_suffix p)) h

/-- What is dropped of a text starts with its first character, if that is. -/
theorem Remains.dropWhile_cons {r : Rune} {rest : Text} {p : Rune → Bool} (h : p r = true) :
    Remains ((r :: rest).dropWhile p) rest := by
  rw [List.dropWhile_cons, if_pos h]
  exact (Remains.refl rest).dropWhile p

/-- What follows a prefix remains. -/
theorem remains_afterPrefix {sym : List Char} {text rest : Text} (h : afterPrefix sym text = some rest) :
    Remains rest text := by
  induction sym generalizing text with
  | nil =>
    cases h
    exact .refl _
  | cons c cs ih =>
    cases text with
    | nil => cases h
    | cons r text =>
      rw [afterPrefix_cons] at h
      split at h
      · exact (ih h).cons r
      · cases h

end Remains

section Literals

/-- What follows a fraction remains. -/
theorem remains_fraction (text : Text) : Remains (fraction text) text :=
  .of_suffix (suffix_of_endsAt (fraction_endsAt text))

/-- What follows an exponent remains. -/
theorem remains_exponent (text : Text) : Remains (exponent text) text :=
  .of_suffix (suffix_of_endsAt (exponent_endsAt text))

/-- The text after what unquoting reads, or after what is wrong. -/
def endOf (r : Except (String × Text) (Text × Text)) : Text :=
  match r with
  | .ok (_, after) => after
  | .error (_, after) => after

/-- A text that is quoted ends where its value is read, whatever becomes of the value. -/
@[simp] theorem endOf_map (f : Text → Text) (r : Except (String × Text) (Text × Text)) :
    endOf (r.map fun (value, after) => (f value, after)) = endOf r := by
  cases r <;> rfl

/-- The bytes of a character past the first are parts of none. -/
theorem remains_tail (e : Rune) (rest : Text) : Remains (e.bytes.tail.map .broken ++ rest) (e :: rest) := by
  have hbytes (bytes : List UInt8) : Text.bytes (bytes.map .broken) = bytes := by
    induction bytes with
    | nil => rfl
    | cons byte bytes ih => rw [List.map_cons, Text.bytes_cons, ih, Rune.bytes, List.singleton_append]
  constructor
  · rw [Text.bytes_append, hbytes, Text.bytes_cons, List.suffix_append_self_iff]
    exact List.tail_suffix e.bytes
  · intro hproper byte hbyte
    rcases List.mem_append.1 hbyte with hbyte | hbyte
    · obtain ⟨byte', hmem, heq⟩ := List.mem_map.1 hbyte
      cases heq
      cases e with
      | char c => exact Utf8.le_of_mem_tail_utf8EncodeChar hmem
      | broken byte' => cases hmem
    · exact hproper byte (List.mem_cons_of_mem e hbyte)

/-- What follows a quoted text remains, one that is not closed included. -/
theorem remains_unquote (quote : Char) (text : Text) : Remains (endOf (unquote quote text)) text := by
  fun_induction unquote quote text with
  | case1 => exact .refl []
  | case2 r rest => exact (Remains.refl rest).cons r
  | case3 r rest => exact .refl (r :: rest)
  | case4 r => exact .of_suffix List.nil_suffix
  | case5 r _ _ _ e rest c _ ih => 
    rw [endOf_map]
    exact (ih.cons e).cons r
  | case6 r _ _ _ e rest => exact (remains_tail e rest).cons r
  | case7 r rest _ _ _ ih =>
    rw [endOf_map]
    exact ih.cons r

/-- A string ends where its quoted text does. -/
theorem rest_string (quote : Char) (text : Text) :
    (Scanner.string quote text).rest = endOf (unquote quote text) := by
  unfold Scanner.string
  cases unquote quote text <;> rfl

/-- What follows a quoted identifier remains. -/
theorem remains_quotedIdentifier (quote : Char) (text : Text) :
    Remains (quotedIdentifier quote text).rest text := by
  have hend := remains_unquote quote text
  unfold quotedIdentifier
  split
  next message after hunquote =>
    rw [hunquote] at hend
    exact hend
  next value after hunquote =>
    rw [hunquote] at hend
    split
    next rest hbracket => exact (remains_afterPrefix hbracket).trans hend
    next => exact hend

/-- What follows a datetime remains. -/
theorem remains_dateTime {text : Text} {scanned : Scanned} (h : dateTime text = some scanned) :
    Remains scanned.rest text := by
  have hblank := (Remains.refl text).dropWhile fun r => r.value = ' ' || r.value = '\t'
  unfold dateTime at h
  split at h
  · cases h
  next r rest hrest =>
    rw [hrest] at hblank
    split at h
    · split at h
      · cases h
        exact .of_suffix List.nil_suffix
      next close after hafter =>
        cases h
        have hclose := (Remains.refl rest).dropWhile fun r => r.value != ')'
        rw [hafter] at hclose
        have hopen : Remains after (r :: rest) :=
          ((Remains.of_suffix (List.suffix_cons close after)).trans hclose).cons r
        exact hopen.trans hblank
    · cases h

end Literals

section Words

variable (abc : Alphabet)

/-- What follows a parameter remains. -/
theorem remains_param (text : Text) : Remains (param abc text).rest text := by
  unfold param
  split
  next r rest =>
    split
    · exact (Remains.refl (r :: rest)).dropWhile fun r => isIdentPart abc r.value
    · exact .refl _
  · exact .refl []

/-- What follows an identifier remains of what came after its first character. -/
theorem remains_identifier {r : Rune} {rest : Text} (h : isIdentStart abc r.value = true) :
    Remains (identifier abc (r :: rest)).rest rest := by
  have hpart : isIdentPart abc r.value = true := by simp [isIdentPart, h]
  have hname : Remains ((r :: rest).dropWhile fun r => isIdentPart abc r.value) rest :=
    .dropWhile_cons hpart
  unfold identifier
  dsimp only
  split
  · cases hdate : dateTime ((r :: rest).dropWhile fun r => isIdentPart abc r.value) with
    | none => exact hname
    | some scanned => exact (remains_dateTime hdate).trans hname
  · exact hname

/-- What follows a number remains of what came after its first digit. -/
theorem remains_number {r : Rune} {rest : Text} (h : Scanner.isDigit r.value = true) :
    Remains (number abc (r :: rest)).rest rest := by
  have hdigits : Remains (digits (r :: rest)) rest := .dropWhile_cons h
  have hplain : Remains (exponent (fraction (digits (r :: rest)))) rest :=
    (remains_exponent _).trans ((remains_fraction _).trans hdigits)
  have hunit := hplain.dropWhile fun r => isIdentPart abc r.value
  unfold number
  dsimp only
  split
  · exact hunit
  · split <;> exact hunit

/-- What follows a symbol remains of what came after its first character. -/
theorem remains_symbol {r : Rune} {rest : Text} {scanned : Scanned}
    (h : symbol (r :: rest) = some scanned) : Remains scanned.rest rest := by
  obtain ⟨⟨sym, kind⟩, hmem, hsym⟩ := List.exists_of_findSome?_eq_some h
  obtain ⟨after, hafter, rfl⟩ := Option.map_eq_some_iff.1 hsym
  have hne : ∀ s ∈ symbols, s.1 ≠ [] := by decide
  obtain ⟨c, cs, rfl⟩ := List.exists_cons_of_ne_nil (hne _ hmem)
  rw [afterPrefix_cons] at hafter
  split at hafter
  · exact remains_afterPrefix hafter
  · cases hafter

/-- A token takes the character it starts with. -/
theorem remains_token (r : Rune) (rest : Text) : Remains (token abc r rest).rest rest := by
  unfold token
  split
  · exact remains_param abc rest
  split
  next hstart => exact remains_identifier abc hstart
  split
  next hdigit => exact remains_number abc hdigit
  split
  · rw [rest_string]
    exact remains_unquote _ rest
  split
  · unfold bracket
    split
    next q after =>
      split
      · exact (remains_quotedIdentifier _ after).cons q
      · exact .refl _
    · exact .refl []
  · cases hsymbol : symbol (r :: rest) with
    | none => exact .refl rest
    | some scanned => exact remains_symbol hsymbol

end Words

section Blanks

/-- Spaces and comments, each to the end of its line. -/
inductive Blank : List UInt8 → Prop
  | nil : Blank []
  | space {c : Char} {bytes : List UInt8} (hc : isSpace c = true) (h : Blank bytes) :
      Blank (String.utf8EncodeChar c ++ bytes)
  | comment {body bytes : List UInt8} (hbody : 10 ∉ body) (h : Blank bytes) :
      Blank (47 :: 47 :: (body ++ 10 :: bytes))

/-- Spaces and comments at the end of a text: whole ones, with a new line after them. -/
def BlankToEnd (bytes : List UInt8) : Prop := Blank (bytes ++ [10])

/-- A character is read from its own bytes, unless it stands for a byte that is part of none. -/
theorem Rune.eq_char {r : Rune} {c : Char} (h : r.value = c) (hc : c ≠ '\uFFFD') : r = .char c := by
  cases r with
  | char c' => exact congrArg Rune.char h
  | broken byte => exact absurd h.symm hc

/-- A space is no replacement of bytes that are not valid. -/
theorem Rune.ne_of_isSpace {r : Rune} (h : isSpace r.value = true) : r.value ≠ '\uFFFD' := by
  intro heq
  rw [heq] at h
  cases h

/-- No other character has the byte of a new line. -/
theorem newline_not_mem_bytes {r : Rune} {text : Text} (hproper : Text.Proper (r :: text))
    (h : r.value ≠ '\n') : 10 ∉ r.bytes := by
  intro hmem
  cases r with
  | broken byte =>
    have hbyte := hproper byte List.mem_cons_self
    obtain rfl := List.mem_singleton.1 hmem
    exact absurd hbyte (by decide)
  | char c =>
    by_cases hascii : c.toNat < 128
    · rw [Rune.bytes, Utf8.utf8EncodeChar_ascii hascii, List.mem_singleton] at hmem
      have hvalue : c.toNat = 10 := by
        have hnat := congrArg UInt8.toNat hmem
        rw [UInt8.toNat_ofNat', Nat.mod_eq_of_lt (by omega)] at hnat
        exact hnat.symm
      exact h (Char.toNat_inj.1 hvalue)
    · have hbyte := Utf8.le_of_mem_utf8EncodeChar (Nat.le_of_not_lt hascii) hmem
      exact absurd hbyte (by decide)

/-- The rest of a proper text is proper. -/
theorem Text.Proper.of_cons {r : Rune} {text : Text} (h : Text.Proper (r :: text)) : Text.Proper text :=
  fun byte hbyte => h byte (List.mem_cons_of_mem r hbyte)

/-- A character that is no replacement has its own bytes. -/
theorem bytes_of_value {r : Rune} {c : Char} (h : r.value = c) (hc : c ≠ '\uFFFD') :
    r.bytes = String.utf8EncodeChar c := by
  rw [Rune.eq_char h hc, Rune.bytes]

/-- What is left after spaces and comments remains. -/
theorem remains_skip {b : Bool} {text rest : Text} (h : skip b text = rest) : Remains rest text := by
  subst h
  fun_induction skip b text with
  | case1 => exact .refl []
  | case2 r rest ih => exact ih.cons r
  | case3 r rest _ ih => exact ih.cons r
  | case4 r rest _ _ ih => exact ih.cons r
  | case5 r rest => exact .refl (r :: rest)

/-- With a new line after it, a text is spaces and comments up to what the skipping stops at. Where it
starts in a comment, the rest of that comes first. -/
theorem bytes_of_skip {b : Bool} {text : Text} (hproper : text.Proper) :
    ∃ body gap, 10 ∉ body ∧ Blank gap ∧ text.bytes ++ [10] =
      (if b then body ++ 10 :: gap else gap) ++ if skip b text = [] then [] else (skip b text).bytes ++ [10] := by
  induction text generalizing b with
  | nil =>
    cases b with
    | true => exact ⟨[], [], List.not_mem_nil, .nil, rfl⟩
    | false => exact ⟨[], [10], List.not_mem_nil, @Blank.space '\n' [] rfl .nil, rfl⟩
  | cons c text ih =>
    have htext := hproper.of_cons
    cases b with
    | true =>
      by_cases hline : c.value = '\n'
      · have hskip : skip true (c :: text) = skip false text := by simp [skip_inComment, hline]
        obtain ⟨_, gap, _, hgap, heq⟩ := @ih false htext
        refine ⟨[], gap, List.not_mem_nil, hgap, ?_⟩
        rw [hskip, Text.bytes_cons, bytes_of_value hline (by decide), List.append_assoc, heq]
        rfl
      · have hskip : skip true (c :: text) = skip true text := by
          rw [skip_inComment, bne_iff_ne.2 hline]
        obtain ⟨body, gap, hbody, hgap, heq⟩ := @ih true htext
        refine ⟨c.bytes ++ body, gap, ?_, hgap, ?_⟩
        · have hc := newline_not_mem_bytes hproper hline
          simp [hc, hbody]
        · rw [hskip, Text.bytes_cons, List.append_assoc, heq, if_pos rfl, if_pos rfl, List.append_assoc,
            List.append_assoc]
          simp
    | false =>
      by_cases hspace : isSpace c.value = true
      · obtain ⟨_, gap, _, hgap, heq⟩ := @ih false htext
        refine ⟨[], String.utf8EncodeChar c.value ++ gap, List.not_mem_nil, .space hspace hgap, ?_⟩
        rw [skip_space hspace, Text.bytes_cons, List.append_assoc, heq,
          bytes_of_value rfl (Rune.ne_of_isSpace hspace)]
        simp
      by_cases hcomment : (afterPrefix ['/', '/'] (c :: text)).isSome = true
      · have hskip : skip false (c :: text) = skip true text := skip_comment hspace hcomment
        cases text with
        | nil => exact absurd hcomment (not_afterPrefix_comment c)
        | cons d text =>
          obtain ⟨hc, hd⟩ := afterPrefix_comment.1 hcomment
          obtain ⟨body, gap, hbody, hgap, heq⟩ := @ih true htext
          -- The comment goes on with its second slash.
          cases body with
          | nil =>
            rw [Text.bytes_cons, bytes_of_value hd (by decide)] at heq
            cases heq
          | cons byte body =>
            have hbyte : byte = 47 := by
              rw [Text.bytes_cons, bytes_of_value hd (by decide)] at heq
              exact (List.cons.inj heq).1.symm
            subst hbyte
            refine ⟨[], 47 :: 47 :: (body ++ 10 :: gap), List.not_mem_nil, .comment ?_ hgap, ?_⟩
            · exact fun hmem => hbody (List.mem_cons_of_mem _ hmem)
            · rw [hskip, Text.bytes_cons, List.append_assoc, heq, bytes_of_value hc (by decide)]
              rfl
      · have hskip : skip false (c :: text) = c :: text := 
          skip_stop (eq_false_of_ne_true hspace) (eq_false_of_ne_true hcomment)
        refine ⟨[], [], List.not_mem_nil, .nil, ?_⟩
        rw [hskip]
        rfl

end Blanks

section Scanning

variable (abc : Alphabet)

/-- Tokens cover some bytes, from a place: each takes a byte or more, and the rest are spaces and
comments. -/
def Covers (start : ℕ) (bytes : List UInt8) (ts : List Token) : Prop :=
  Tiles (fun tok : Token => (tok.span.start, tok.span.stop)) Blank BlankToEnd start bytes ts

/-- A scan from a place covers the text from there on. -/
theorem scanFrom_covers {n start : ℕ} {text : Text} (hn : text.size ≤ n) (hproper : text.Proper) :
    Covers start text.bytes (scanFrom abc n start text) := by
  induction n generalizing start text with
  | zero =>
    cases text with
    | nil => exact .last (@Blank.space '\n' [] rfl .nil)
    | cons r text =>
      rw [Text.size_cons] at hn
      have hr := r.size_pos
      omega
  | succ n ih =>
    obtain ⟨_, gap, _, hgap, heq⟩ := @bytes_of_skip false text hproper
    rw [scanFrom, skipSpaceAndComments]
    cases hskip : skip false text with
    | nil =>
      rw [hskip, if_pos rfl, if_neg Bool.false_ne_true, List.append_nil] at heq
      refine .last ?_
      rw [BlankToEnd, heq]
      exact hgap
    | cons r rest =>
      rw [hskip, if_neg (List.cons_ne_nil r rest), if_neg Bool.false_ne_true, ← List.append_assoc,
        List.append_left_inj] at heq
      have hremains := remains_token abc r rest
      obtain ⟨taken, htaken⟩ := hremains.bytes
      have hrest : Remains (r :: rest) text := remains_skip hskip
      have hcells : r.bytes ++ taken ≠ [] := by simp [List.ne_nil_of_length_pos r.size_pos]
      have hbytes : text.bytes = gap ++ (r.bytes ++ taken ++ (token abc r rest).rest.bytes) := by
        rw [heq, Text.bytes_cons, List.append_assoc, htaken]
      have hsize := congrArg List.length hbytes
      have hsize' := congrArg List.length htaken
      have hpos := r.size_pos
      simp only [List.length_append, Text.length_bytes] at hsize hsize'
      have hstart : start + (text.size - Text.size (r :: rest)) = start + gap.length := by
        rw [Text.size_cons]
        omega
      have hstop : start + gap.length + (Text.size (r :: rest) - (token abc r rest).rest.size) =
          start + gap.length + (r.bytes ++ taken).length := by
        rw [Text.size_cons, List.length_append]
        omega
      simp only [hstart, hstop]
      rw [hbytes]
      refine .piece hgap hcells rfl (ih (by omega) (hremains.proper ?_))
      exact (hrest.proper hproper).of_cons

end Scanning

end SolidTrace.LogQuery
