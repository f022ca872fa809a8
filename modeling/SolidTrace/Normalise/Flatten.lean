import Mathlib.Data.List.AList
import SolidTrace.Lib.Winners

/-!
# Flattening

`flatten` turns the nested objects of a Log into dotted names, with the most literal of the forms of a
name. Go's maps are lists of distinct keys, which it may visit in any order. A JSON value is bytes without
a space but ASCII's at either end; how it is decoded is a parameter.
-/

namespace SolidTrace.Normalise

abbrev Bytes := List UInt8

/-- A `map[string]json.RawMessage`. -/
abbrev Object := AList fun _ : Bytes => Bytes

/-- An order in which Go visits the maps it meets: any order of each one's entries. -/
structure IterationOrder where
  visit : Bytes → List ℕ → Object → List (Σ _ : Bytes, Bytes)
  perm : ∀ pre path object, (visit pre path object).Perm object.entries

/-- How many levels of nested objects are flattened. -/
def maxDepth : ℕ := 10

/-- The byte `.`. -/
def dot : UInt8 := 46

section Model

/-- ASCII's spaces, the only ones around a JSON value. -/
def isSpace (b : UInt8) : Bool := b = 32 ∨ (9 ≤ b ∧ b ≤ 13)

def trimSpace (raw : Bytes) : Bytes := ((raw.dropWhile isSpace).reverse.dropWhile isSpace).reverse

/-- Whether a value is `null`. -/
def isNull (raw : Bytes) : Bool := trimSpace raw = [110, 117, 108, 108]

/-- Whether a name made of keys of lengths `a` is a more literal form than one made of keys of lengths
`b`: the lengths where they differ, the outermost first. -/
def longerFirst : List ℕ → List ℕ → Bool
  | a :: as, b :: bs => if a ≠ b then a > b else longerFirst as bs
  | _, _ => false

/-- No keys are longer first than none. -/
@[simp]
theorem longerFirst_nil (b : List ℕ) : longerFirst [] b = false := rfl

/-- Keys are not longer first than fewer. -/
theorem longerFirst_cons_nil (x : ℕ) (as : List ℕ) : longerFirst (x :: as) [] = false := rfl

/-- The first length that differs decides. -/
theorem longerFirst_cons (x y : ℕ) (as bs : List ℕ) :
    longerFirst (x :: as) (y :: bs) = if x ≠ y then decide (x > y) else longerFirst as bs := rfl

def moreLiteral (a b : List ℕ) : Bool :=
  if a.length ≠ b.length then a.length < b.length else longerFirst a b

structure Flattener where
  values : Object
  /-- The lengths of the keys each name was made of. -/
  paths : AList fun _ : Bytes => List ℕ

/-- Set a name's value, unless the form it has is as literal. -/
def Flattener.set (f : Flattener) (name : Bytes) (keyPath : List ℕ) (raw : Bytes) : Flattener :=
  match f.paths.lookup name with
  | some existing =>
    if moreLiteral keyPath existing then ⟨f.values.insert name raw, f.paths.insert name keyPath⟩ else f
  | none => ⟨f.values.insert name raw, f.paths.insert name keyPath⟩

/-- The members of a value that is an object. -/
def innerObject (unmarshalObject : Bytes → Option Object) (raw : Bytes) : Option Object :=
  if raw.head? = some 123 then unmarshalObject raw else none

variable (unmarshalObject : Bytes → Option Object) (order : IterationOrder)

/-- Add an object's values under a prefix. `levels` is how many more levels of objects are flattened:
`maxDepth` less the keys of the path and one. -/
def add (levels : ℕ) (f : Flattener) (pre : Bytes) (path : List ℕ) (object : Object) : Flattener :=
  (order.visit pre path object).foldl (fun f entry =>
    let raw := trimSpace entry.2
    if raw = [] ∨ isNull raw then f
    else
      let name := pre ++ entry.1
      let keyPath := path ++ [entry.1.length]
      match levels with
      | 0 => f.set name keyPath raw
      | levels + 1 =>
        match innerObject unmarshalObject raw with
        | some inner => add levels f (name ++ [dot]) keyPath inner
        | none => f.set name keyPath raw) f

/-- The values of an object under flat names. -/
def flatten (object : Object) : Object :=
  (add unmarshalObject order (maxDepth - 1) ⟨∅, ∅⟩ [] [] object).values

end Model

section MoreLiteral

/-- Of two lists of lengths one at most is longer first. -/
theorem longerFirst_asymm {a b : List ℕ} (h : longerFirst a b = true) : longerFirst b a = false := by
  induction a generalizing b with
  | nil => cases h
  | cons x as ih =>
    cases b with
    | nil => cases h
    | cons y bs =>
      rw [longerFirst_cons] at h ⊢
      by_cases hxy : x = y
      · rw [if_neg (not_not.2 hxy)] at h
        rw [if_neg (not_not.2 hxy.symm)]
        exact ih h
      · rw [if_pos hxy, decide_eq_true_eq] at h
        rw [if_pos (Ne.symm hxy), decide_eq_false_iff_not]
        omega

/-- Longer first is transitive. -/
theorem longerFirst_trans {a b c : List ℕ} (hab : longerFirst a b = true) (hbc : longerFirst b c = true) :
    longerFirst a c = true := by
  induction a generalizing b c with
  | nil => cases hab
  | cons x as ih =>
    obtain ⟨y, bs, rfl⟩ : ∃ y bs, b = y :: bs := by
      cases b with
      | nil => cases hab
      | cons y bs => exact ⟨y, bs, rfl⟩
    obtain ⟨z, cs, rfl⟩ : ∃ z cs, c = z :: cs := by
      cases c with
      | nil => cases hbc
      | cons z cs => exact ⟨z, cs, rfl⟩
    rw [longerFirst_cons] at hab hbc ⊢
    by_cases hxy : x = y <;> by_cases hyz : y = z
    · rw [if_neg (not_not.2 hxy)] at hab
      rw [if_neg (not_not.2 hyz)] at hbc
      rw [if_neg (not_not.2 (hxy.trans hyz))]
      exact ih hab hbc
    · rw [if_pos hyz] at hbc
      rw [hxy, if_pos hyz]
      exact hbc
    · rw [if_pos hxy] at hab
      rw [← hyz, if_pos hxy]
      exact hab
    · rw [if_pos hxy, decide_eq_true_eq] at hab
      rw [if_pos hyz, decide_eq_true_eq] at hbc
      rw [if_pos (by omega), decide_eq_true_eq]
      omega

/-- Two different lists of as many lengths are in order one way. -/
theorem longerFirst_total {a b : List ℕ} (hlength : a.length = b.length) (hne : a ≠ b) :
    longerFirst a b = true ∨ longerFirst b a = true := by
  induction a generalizing b with
  | nil => exact absurd (List.eq_nil_of_length_eq_zero hlength.symm).symm hne
  | cons x as ih =>
    cases b with
    | nil => simp at hlength
    | cons y bs =>
      rw [longerFirst_cons, longerFirst_cons]
      by_cases hxy : x = y
      · rw [if_neg (not_not.2 hxy), if_neg (not_not.2 hxy.symm)]
        exact ih (by simpa using hlength) fun h => hne (by rw [hxy, h])
      · rw [if_pos hxy, if_pos (Ne.symm hxy), decide_eq_true_eq, decide_eq_true_eq]
        omega

/-- `moreLiteral` is a strict order on the lengths of keys. -/
theorem moreLiteral_asymm {a b : List ℕ} (h : moreLiteral a b = true) : ¬moreLiteral b a = true := by
  unfold moreLiteral at h ⊢
  by_cases hlength : a.length = b.length
  · rw [if_neg (not_not.2 hlength)] at h
    rw [if_neg (not_not.2 hlength.symm), longerFirst_asymm h]
    exact Bool.false_ne_true
  · rw [if_pos hlength, decide_eq_true_eq] at h
    rw [if_pos (Ne.symm hlength), decide_eq_true_eq]
    omega

/-- More literal is transitive. -/
theorem moreLiteral_trans {a b c : List ℕ} (hab : moreLiteral a b = true) (hbc : moreLiteral b c = true) :
    moreLiteral a c = true := by
  unfold moreLiteral at hab hbc ⊢
  by_cases hlab : a.length = b.length <;> by_cases hlbc : b.length = c.length
  · rw [if_neg (not_not.2 hlab)] at hab
    rw [if_neg (not_not.2 hlbc)] at hbc
    rw [if_neg (not_not.2 (hlab.trans hlbc))]
    exact longerFirst_trans hab hbc
  · rw [if_pos hlbc] at hbc
    rw [hlab, if_pos hlbc]
    exact hbc
  · rw [if_pos hlab] at hab
    rw [← hlbc, if_pos hlab]
    exact hab
  · rw [if_pos hlab, decide_eq_true_eq] at hab
    rw [if_pos hlbc, decide_eq_true_eq] at hbc
    rw [if_pos (by omega), decide_eq_true_eq]
    omega

/-- Two different lists of lengths are in order one way. -/
theorem moreLiteral_total {a b : List ℕ} (hne : a ≠ b) : moreLiteral a b = true ∨ moreLiteral b a = true := by
  unfold moreLiteral
  by_cases hlength : a.length = b.length
  · rw [if_neg (not_not.2 hlength), if_neg (not_not.2 hlength.symm)]
    exact longerFirst_total hlength hne
  · rw [if_pos hlength, if_pos (Ne.symm hlength), decide_eq_true_eq, decide_eq_true_eq]
    omega

/-- The lengths where two paths first differ decide which is longer first. -/
theorem longerFirst_iff {a b : List ℕ} : longerFirst a b = true ↔
    ∃ shared x y as bs, a = shared ++ x :: as ∧ b = shared ++ y :: bs ∧ y < x := by
  induction a generalizing b with
  | nil =>
    rw [longerFirst_nil]
    constructor
    · exact fun h => absurd h Bool.false_ne_true
    · intro h
      obtain ⟨shared, x, y, as, bs, ha, -, -⟩ := h
      exact absurd ha.symm (List.append_ne_nil_of_right_ne_nil _ (List.cons_ne_nil x as))
  | cons x as ih =>
    cases b with
    | nil =>
      rw [longerFirst_cons_nil]
      constructor
      · exact fun h => absurd h Bool.false_ne_true
      · intro h
        obtain ⟨shared, x, y, as, bs, -, hb, -⟩ := h
        exact absurd hb.symm (List.append_ne_nil_of_right_ne_nil _ (List.cons_ne_nil y bs))
    | cons y bs =>
      rw [longerFirst_cons]
      by_cases hxy : x = y
      · subst hxy
        rw [if_neg (not_not.2 rfl), ih]
        constructor
        · intro h
          obtain ⟨shared, x', y', as', bs', ha, hb, hlonger⟩ := h
          exact ⟨x :: shared, x', y', as', bs', congrArg (x :: ·) ha, congrArg (x :: ·) hb, hlonger⟩
        · intro h
          obtain ⟨shared, x', y', as', bs', ha, hb, hlonger⟩ := h
          cases shared with
          | nil =>
            obtain ⟨hx, -⟩ := List.cons.inj ha
            obtain ⟨hy, -⟩ := List.cons.inj hb
            omega
          | cons z shared =>
            exact ⟨shared, x', y', as', bs', (List.cons.inj ha).2, (List.cons.inj hb).2, hlonger⟩
      · rw [if_pos hxy, decide_eq_true_eq]
        constructor
        · intro h
          exact ⟨[], x, y, as, bs, rfl, rfl, h⟩
        · intro h
          obtain ⟨shared, x', y', as', bs', ha, hb, hlonger⟩ := h
          cases shared with
          | nil =>
            obtain ⟨rfl, -⟩ := List.cons.inj ha
            obtain ⟨rfl, -⟩ := List.cons.inj hb
            exact hlonger
          | cons z shared => exact absurd ((List.cons.inj ha).1.trans (List.cons.inj hb).1.symm) hxy

end MoreLiteral

section Forms

/-- A form of a name: the keys it is made of, and the value they lead to. -/
structure Form where
  keys : List Bytes
  value : Bytes
deriving DecidableEq

/-- The keys before the last one, with a dot after each. -/
def prefixOf (keys : List Bytes) : Bytes := keys.flatMap (· ++ [dot])

/-- The name that keys make. -/
def nameOf (keys : List Bytes) : Bytes := prefixOf keys.dropLast ++ keys.getLastD []

def Form.lengths (form : Form) : List ℕ := form.keys.map List.length

/-- A key more is put after the prefix of those before it. -/
@[simp]
theorem nameOf_append_singleton (keys : List Bytes) (key : Bytes) :
    nameOf (keys ++ [key]) = prefixOf keys ++ key := by
  rw [nameOf, List.dropLast_concat, List.getLastD_concat]

/-- A key more ends the prefix with itself and a dot. -/
theorem prefixOf_append_singleton (keys : List Bytes) (key : Bytes) :
    prefixOf (keys ++ [key]) = prefixOf keys ++ key ++ [dot] := by
  simp [prefixOf]

/-- A prefix starts with its first key and a dot. -/
theorem prefixOf_cons_append (key : Bytes) (rest : List Bytes) (last : Bytes) :
    prefixOf (key :: rest) ++ last = key ++ (dot :: (prefixOf rest ++ last)) := by
  simp [prefixOf]

/-- Keys of the same lengths make different names. -/
theorem prefixOf_inj {keys others : List Bytes} {last lastOther : Bytes}
    (hlengths : keys.map List.length = others.map List.length)
    (hname : prefixOf keys ++ last = prefixOf others ++ lastOther) : keys = others ∧ last = lastOther := by
  induction keys generalizing others with
  | nil =>
    obtain rfl := List.map_eq_nil_iff.1 hlengths.symm
    exact ⟨rfl, hname⟩
  | cons key rest ih =>
    cases others with
    | nil => simp at hlengths
    | cons other others =>
      obtain ⟨hlength, hlengths⟩ := List.cons.inj hlengths
      rw [prefixOf_cons_append, prefixOf_cons_append] at hname
      obtain ⟨hkey, hrest⟩ := List.append_inj hname hlength
      obtain ⟨hrest, hlast⟩ := ih hlengths (List.cons.inj hrest).2
      exact ⟨by rw [hkey, hrest], hlast⟩

/-- Keys of the same lengths and the same name are the same. -/
theorem keys_eq_of_nameOf_eq {keys others : List Bytes} (hlengths : keys.map List.length = others.map List.length)
    (hname : nameOf keys = nameOf others) : keys = others := by
  have hlength : keys.length = others.length := by simpa using congrArg List.length hlengths
  rcases List.eq_nil_or_concat keys with rfl | ⟨init, last, rfl⟩
  · exact (List.eq_nil_of_length_eq_zero hlength.symm).symm
  rcases List.eq_nil_or_concat others with rfl | ⟨initOther, lastOther, rfl⟩
  · simp at hlength
  rw [List.concat_eq_append, List.concat_eq_append] at *
  rw [nameOf_append_singleton, nameOf_append_singleton] at hname
  rw [List.map_append, List.map_append] at hlengths
  obtain ⟨hinit, hlast⟩ := prefixOf_inj (List.append_inj_left' hlengths rfl) hname
  rw [hinit, hlast]

variable (unmarshalObject : Bytes → Option Object)

/-- A value's members, where it is an object that is flattened. -/
def flattened (levels : ℕ) (raw : Bytes) : Option Object :=
  match levels with
  | 0 => none
  | _ + 1 => innerObject unmarshalObject raw

/-- Whether keys lead from an object to a value that is not flattened. -/
def LeadsTo (levels : ℕ) (object : Object) : List Bytes → Bytes → Prop
  | [], _ => False
  | key :: rest, value => ∃ sent ∈ object.lookup key, ¬(trimSpace sent = [] ∨ isNull (trimSpace sent)) ∧
      match flattened unmarshalObject levels (trimSpace sent) with
      | some inner => LeadsTo (levels - 1) inner rest value
      | none => rest = [] ∧ value = trimSpace sent

variable {unmarshalObject}

/-- Keys lead to one value at most. -/
theorem LeadsTo.unique {levels : ℕ} {object : Object} {keys : List Bytes} {value other : Bytes}
    (h : LeadsTo unmarshalObject levels object keys value)
    (hother : LeadsTo unmarshalObject levels object keys other) : value = other := by
  induction keys generalizing levels object with
  | nil => exact h.elim
  | cons key rest ih =>
    obtain ⟨sent, hsent, -, h⟩ := h
    obtain ⟨sent', hsent', -, hother⟩ := hother
    obtain rfl := Option.some.inj (hsent.symm.trans hsent')
    split at h
    next inner hinner =>
      rw [hinner] at hother
      exact ih h hother
    next hnone =>
      rw [hnone] at hother
      exact h.2.trans hother.2.symm

end Forms

section Visits

variable {unmarshalObject : Bytes → Option Object} {order : IterationOrder}

/-- The forms that flattening comes to, in the order it does. -/
def visited (unmarshalObject : Bytes → Option Object) (order : IterationOrder) (levels : ℕ)
    (keys : List Bytes) (object : Object) : List Form :=
  (order.visit (prefixOf keys) (keys.map List.length) object).flatMap fun entry =>
    let raw := trimSpace entry.2
    if raw = [] ∨ isNull raw then []
    else
      match levels with
      | 0 => [⟨keys ++ [entry.1], raw⟩]
      | levels + 1 =>
        match innerObject unmarshalObject raw with
        | some inner => visited unmarshalObject order levels (keys ++ [entry.1]) inner
        | none => [⟨keys ++ [entry.1], raw⟩]

def Flattener.setForm (f : Flattener) (form : Form) : Flattener :=
  f.set (nameOf form.keys) form.lengths form.value

/-- Flattening sets the forms it comes to one after another. -/
theorem add_eq_foldl (levels : ℕ) (f : Flattener) (keys : List Bytes) (object : Object) :
    add unmarshalObject order levels f (prefixOf keys) (keys.map List.length) object =
      (visited unmarshalObject order levels keys object).foldl Flattener.setForm f := by
  induction levels generalizing f keys object with
  | zero =>
    unfold add visited
    rw [List.foldl_flatMap]
    congr 1
    funext f entry
    dsimp only
    split
    · rfl
    · rw [List.foldl_cons, List.foldl_nil, Flattener.setForm, nameOf_append_singleton, Form.lengths, List.map_append]
      rfl
  | succ levels ih =>
    unfold add visited
    rw [List.foldl_flatMap]
    congr 1
    funext f entry
    dsimp only
    split
    · rfl
    · cases innerObject unmarshalObject (trimSpace entry.2) with
      | some inner =>
        have hinner := ih f (keys ++ [entry.1]) inner
        rw [prefixOf_append_singleton, List.map_append] at hinner
        exact hinner
      | none =>
        dsimp only
        rw [List.foldl_cons, List.foldl_nil, Flattener.setForm, nameOf_append_singleton, Form.lengths,
          List.map_append]
        rfl

/-- The forms that are visited on one level, each inner object's in its place. -/
theorem visited_eq (levels : ℕ) (keys : List Bytes) (object : Object) :
    visited unmarshalObject order levels keys object =
      (order.visit (prefixOf keys) (keys.map List.length) object).flatMap fun entry =>
        if trimSpace entry.2 = [] ∨ isNull (trimSpace entry.2) then []
        else
          match flattened unmarshalObject levels (trimSpace entry.2) with
          | some inner => visited unmarshalObject order (levels - 1) (keys ++ [entry.1]) inner
          | none => [⟨keys ++ [entry.1], trimSpace entry.2⟩] := by
  cases levels <;> (rw [visited]; rfl)

/-- The forms that flattening comes to are those that keys lead to, in whatever order it visits maps. -/
theorem mem_visited_iff {levels : ℕ} {keys : List Bytes} {object : Object} {form : Form} :
    form ∈ visited unmarshalObject order levels keys object ↔
      ∃ rest, form.keys = keys ++ rest ∧ LeadsTo unmarshalObject levels object rest form.value := by
  induction hlevels : levels using Nat.strong_induction_on generalizing levels keys object with
  | _ n ih =>
    subst hlevels
    have hinner : ∀ keys inner raw, flattened unmarshalObject levels raw = some inner →
        (form ∈ visited unmarshalObject order (levels - 1) keys inner ↔
          ∃ rest, form.keys = keys ++ rest ∧ LeadsTo unmarshalObject (levels - 1) inner rest form.value) := by
      intro keys inner raw hraw
      cases levels with
      | zero => cases hraw
      | succ levels => exact ih levels (Nat.lt_succ_self _) rfl
    rw [visited_eq, List.mem_flatMap]
    constructor
    · rintro ⟨⟨key, sent⟩, hentry, hform⟩
      have hsent : object.lookup key = some sent :=
        AList.mem_lookup_iff.2 ((order.perm _ _ _).mem_iff.1 hentry)
      dsimp only at hform
      split at hform
      · cases hform
      next hvalue =>
        split at hform
        next inner hflattened =>
          obtain ⟨rest, hkeys, hleads⟩ := (hinner _ _ _ hflattened).1 hform
          refine ⟨key :: rest, by rw [hkeys, List.append_assoc, List.singleton_append], sent, hsent, hvalue, ?_⟩
          rw [hflattened]
          exact hleads
        next hnone =>
          obtain rfl := List.mem_singleton.1 hform
          refine ⟨[key], rfl, sent, hsent, hvalue, ?_⟩
          rw [hnone]
          exact ⟨rfl, rfl⟩
    · rintro ⟨rest, hkeys, hleads⟩
      cases rest with
      | nil => exact hleads.elim
      | cons key rest =>
        obtain ⟨sent, hsent, hvalue, hleads⟩ := hleads
        refine ⟨⟨key, sent⟩, (order.perm _ _ _).mem_iff.2 (AList.mem_lookup_iff.1 hsent), ?_⟩
        dsimp only
        rw [if_neg hvalue]
        cases hflattened : flattened unmarshalObject levels (trimSpace sent) with
        | some inner =>
          rw [hflattened] at hleads
          exact (hinner _ _ _ hflattened).2
            ⟨rest, by rw [hkeys, List.append_assoc, List.singleton_append], hleads⟩
        | none =>
          rw [hflattened] at hleads
          obtain ⟨rfl, hvalue⟩ := hleads
          refine List.mem_singleton.2 ?_
          cases form
          cases hkeys
          cases hvalue
          rfl

end Visits

section Winner

variable {unmarshalObject : Bytes → Option Object} {order : IterationOrder}

/-- Whether a form is more literal than another: it has fewer keys, or as many and, of the outermost two
keys that differ in length, the longer. -/
def Form.MoreLiteral (a b : Form) : Prop :=
  a.keys.length < b.keys.length ∨ a.keys.length = b.keys.length ∧
    ∃ shared x y as bs, a.lengths = shared ++ x :: as ∧ b.lengths = shared ++ y :: bs ∧ y < x

/-- The source compares forms by the lengths of their keys. -/
theorem moreLiteral_lengths_iff {a b : Form} : moreLiteral a.lengths b.lengths = true ↔ a.MoreLiteral b := by
  rw [moreLiteral, Form.MoreLiteral, ← longerFirst_iff, show a.lengths.length = a.keys.length from List.length_map _,
    show b.lengths.length = b.keys.length from List.length_map _]
  by_cases hlength : a.keys.length = b.keys.length
  · rw [if_neg (not_not.2 hlength), hlength]
    constructor
    · exact fun h => .inr ⟨rfl, h⟩
    · exact fun h => h.elim (fun hless => absurd hless (lt_irrefl _)) And.right
  · rw [if_pos hlength, decide_eq_true_eq]
    constructor
    · exact fun h => .inl h
    · exact fun h => h.elim id fun hsame => absurd hsame.1 hlength

instance : DecidableRel Form.MoreLiteral := fun _ _ => decidable_of_iff _ moreLiteral_lengths_iff

/-- Of two forms one at most is more literal. -/
theorem Form.MoreLiteral.asymm {a b : Form} (h : a.MoreLiteral b) : ¬b.MoreLiteral a := by
  rw [← moreLiteral_lengths_iff] at h ⊢
  exact moreLiteral_asymm h

/-- More literal is transitive over forms. -/
theorem Form.MoreLiteral.trans {a b c : Form} (hab : a.MoreLiteral b) (hbc : b.MoreLiteral c) :
    a.MoreLiteral c := by
  rw [← moreLiteral_lengths_iff] at hab hbc ⊢
  exact moreLiteral_trans hab hbc

/-- The forms of an object's names. -/
def IsForm (unmarshalObject : Bytes → Option Object) (object : Object) (form : Form) : Prop :=
  LeadsTo unmarshalObject (maxDepth - 1) object form.keys form.value

/-- Two forms of one name never tie. -/
theorem moreLiteral_or_of_isForm {object : Object} {a b : Form} (ha : IsForm unmarshalObject object a)
    (hb : IsForm unmarshalObject object b) (hname : nameOf a.keys = nameOf b.keys) (hne : a ≠ b) :
    a.MoreLiteral b ∨ b.MoreLiteral a := by
  rw [← moreLiteral_lengths_iff, ← moreLiteral_lengths_iff]
  refine moreLiteral_total fun hlengths => hne ?_
  obtain ⟨keys, value⟩ := a
  obtain ⟨keys', value'⟩ := b
  obtain rfl := keys_eq_of_nameOf_eq hlengths hname
  obtain rfl := ha.unique hb
  rfl

/-- The winners as the source keeps them: values and paths apart. -/
structure Keeps (f : Flattener) (kept : Bytes → Option Form) : Prop where
  values : ∀ name, f.values.lookup name = (kept name).map Form.value
  paths : ∀ name, f.paths.lookup name = (kept name).map Form.lengths

/-- Setting a form keeps the more literal of two. -/
theorem Keeps.setForm {f : Flattener} {kept : Bytes → Option Form} (h : Keeps f kept) (form : Form) :
    Keeps (f.setForm form) (Winners.keep (fun form => nameOf form.keys) Form.MoreLiteral kept form) := by
  have hinsert : Keeps ⟨f.values.insert (nameOf form.keys) form.value,
      f.paths.insert (nameOf form.keys) form.lengths⟩
      (Function.update kept (nameOf form.keys) (some form)) := by
    constructor
    · intro name
      by_cases hname : name = nameOf form.keys
      · subst hname
        rw [AList.lookup_insert, Function.update_self]
        rfl
      · rw [AList.lookup_insert_ne hname, Function.update_of_ne hname, h.values]
    · intro name
      by_cases hname : name = nameOf form.keys
      · subst hname
        rw [AList.lookup_insert, Function.update_self]
        rfl
      · rw [AList.lookup_insert_ne hname, Function.update_of_ne hname, h.paths]
  unfold Flattener.setForm Flattener.set Winners.keep
  rw [h.paths]
  cases hkept : kept (nameOf form.keys) with
  | none => exact hinsert
  | some existing =>
    have hsame : Function.update kept (nameOf form.keys) (some existing) = kept := by
      rw [← hkept]
      exact Function.update_eq_self _ _
    change Keeps (if moreLiteral form.lengths existing.lengths = true then _ else f)
      (Function.update kept (nameOf form.keys) (some (if form.MoreLiteral existing then form else existing)))
    by_cases hmore : moreLiteral form.lengths existing.lengths = true
    · rw [if_pos hmore, if_pos (moreLiteral_lengths_iff.1 hmore)]
      exact hinsert
    · rw [if_neg hmore, if_neg (mt moreLiteral_lengths_iff.2 hmore), hsame]
      exact h

/-- Setting forms keeps the most literal of each name. -/
theorem Keeps.foldl_setForm {f : Flattener} {kept : Bytes → Option Form} (h : Keeps f kept) (forms : List Form) :
    Keeps (forms.foldl Flattener.setForm f)
      (forms.foldl (Winners.keep (fun form => nameOf form.keys) Form.MoreLiteral) kept) := by
  induction forms generalizing f kept with
  | nil => exact h
  | cons form rest ih => exact ih (h.setForm form)

/-- The forms that flattening comes to, of a whole object. -/
theorem mem_visited_iff_isForm {object : Object} {form : Form} :
    form ∈ visited unmarshalObject order (maxDepth - 1) [] object ↔ IsForm unmarshalObject object form := by
  rw [mem_visited_iff]
  constructor
  · rintro ⟨rest, hkeys, hleads⟩
    rw [List.nil_append] at hkeys
    rw [IsForm, hkeys]
    exact hleads
  · exact fun h => ⟨form.keys, rfl, h⟩

/-- The forms of an object that share a name are in order. -/
theorem decides_visited (object : Object) : Winners.Decides (fun form => nameOf form.keys) Form.MoreLiteral
    (visited unmarshalObject order (maxDepth - 1) [] object) where
  asymm _ _ := Form.MoreLiteral.asymm
  trans _ _ _ := Form.MoreLiteral.trans
  total _ ha _ hb := moreLiteral_or_of_isForm (mem_visited_iff_isForm.1 ha) (mem_visited_iff_isForm.1 hb)

/-- A name's value is that of its most literal form. -/
theorem lookup_flatten (object : Object) (name : Bytes) :
    (flatten unmarshalObject order object).lookup name =
      (Winners.winners (fun form => nameOf form.keys) Form.MoreLiteral
        (visited unmarshalObject order (maxDepth - 1) [] object) name).map Form.value := by
  have hempty : Keeps ⟨∅, ∅⟩ fun _ => none := ⟨fun name => AList.lookup_empty name, fun name => AList.lookup_empty name⟩
  have hadd := @add_eq_foldl unmarshalObject order (maxDepth - 1) ⟨∅, ∅⟩ [] object
  rw [flatten]
  exact hadd ▸ (hempty.foldl_setForm _).values name

/-- The most literal form of a name. -/
def IsMostLiteral (unmarshalObject : Bytes → Option Object) (object : Object) (name : Bytes) (form : Form) : Prop :=
  IsForm unmarshalObject object form ∧ nameOf form.keys = name ∧
    ∀ other, IsForm unmarshalObject object other → nameOf other.keys = name → other ≠ form →
      form.MoreLiteral other

/-- What flattening gives, in whatever order Go visits the maps. -/
structure FlattensLiterally (unmarshalObject : Bytes → Option Object) (object : Object) : Prop where
  anyOrder : ∀ (order order' : IterationOrder) name,
    (flatten unmarshalObject order object).lookup name = (flatten unmarshalObject order' object).lookup name
  names : ∀ (order : IterationOrder) name, name ∈ flatten unmarshalObject order object ↔
    ∃ form, IsForm unmarshalObject object form ∧ nameOf form.keys = name
  values : ∀ (order : IterationOrder) name value,
    (flatten unmarshalObject order object).lookup name = some value ↔
      ∃ form, IsMostLiteral unmarshalObject object name form ∧ form.value = value
  unique : ∀ name form other, IsMostLiteral unmarshalObject object name form →
    IsMostLiteral unmarshalObject object name other → form = other
  noTie : ∀ a b, IsForm unmarshalObject object a → IsForm unmarshalObject object b →
    nameOf a.keys = nameOf b.keys → a ≠ b →
      a.MoreLiteral b ∧ ¬b.MoreLiteral a ∨ b.MoreLiteral a ∧ ¬a.MoreLiteral b

/-- Flattening does not depend on the order of maps: each name's value is that of its most literal form,
which no other form ties with. -/
theorem flatten_flattensLiterally (unmarshalObject : Bytes → Option Object) (object : Object) :
    FlattensLiterally unmarshalObject object := by
  have hvalues : ∀ (order : IterationOrder) name value,
      (flatten unmarshalObject order object).lookup name = some value ↔
        ∃ form, IsMostLiteral unmarshalObject object name form ∧ form.value = value := by
    intro order name value
    rw [lookup_flatten, Option.map_eq_some_iff]
    refine exists_congr fun form => and_congr_left fun _ => ?_
    rw [(decides_visited object).winners_eq_some_iff, Winners.IsBest, IsMostLiteral]
    simp only [mem_visited_iff_isForm]
  refine ⟨fun order order' name => Option.ext fun value => ?_, fun order name => ?_, hvalues, ?_, ?_⟩
  · exact (hvalues order name value).trans (hvalues order' name value).symm
  · rw [← AList.lookup_isSome, lookup_flatten, Option.isSome_map, (decides_visited object).isSome_winners_iff]
    simp only [mem_visited_iff_isForm]
  · rintro name form other ⟨hform, hname, hbest⟩ ⟨hother, hname', hbest'⟩
    by_contra hne
    exact (hbest other hother hname' (Ne.symm hne)).asymm (hbest' form hform hname hne)
  · intro a b ha hb hname hne
    rcases moreLiteral_or_of_isForm ha hb hname hne with hab | hba
    · exact .inl ⟨hab, hab.asymm⟩
    · exact .inr ⟨hba, hba.asymm⟩

end Winner

end SolidTrace.Normalise
