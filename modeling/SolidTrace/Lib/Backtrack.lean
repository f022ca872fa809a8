import Mathlib.Data.List.TakeWhile

/-!
# Backtracking stars

The stars of a regular expression as a backtracking matcher tries them, the rest of the pattern being
a function of the text that is left: greedily, the longest run first, or lazily, the shortest first.
-/

namespace Backtrack

variable {α β : Type*} (p : α → Bool)

/-- `p*`, then the rest of the pattern. -/
def greedy (k : List α → Option β) : List α → Option β
  | [] => k []
  | a :: rest => if p a then (greedy k rest).or (k (a :: rest)) else k (a :: rest)

/-- `p+`, then the rest of the pattern. -/
def plus (k : List α → Option β) : List α → Option β
  | [] => none
  | a :: rest => if p a then greedy p k rest else none

/-- `(p*?)`, then the rest of the pattern: what the star took and what the rest gave. -/
def lazily (k : List α → Option β) : List α → Option (List α × β)
  | [] => (k []).map fun b => ([], b)
  | a :: rest =>
    match k (a :: rest) with
    | some b => some ([], b)
    | none => if p a then (lazily k rest).map fun (run, b) => (a :: run, b) else none

/-- `(p*)`, then the rest of the pattern: what the star took, as much as it may, and what the rest gave. -/
def greedily (k : List α → Option β) : List α → Option (List α × β)
  | [] => (k []).map fun b => ([], b)
  | a :: rest =>
    match if p a then greedily k rest else none with
    | some (run, b) => some (a :: run, b)
    | none => (k (a :: rest)).map fun b => ([], b)

/-- A greedy star takes its whole run where giving some of it back never helps. -/
theorem greedy_eq {k : List α → Option β} (hk : ∀ a rest, p a = true → k rest = none → k (a :: rest) = none)
    (text : List α) : greedy p k text = k (text.dropWhile p) := by
  induction text with
  | nil => rfl
  | cons a rest ih =>
    by_cases ha : p a = true
    · rw [greedy, if_pos ha, ih, List.dropWhile_cons_of_pos ha]
      cases hrest : k (rest.dropWhile p) with
      | some b => rfl
      | none =>
        have hback : ∀ run : List α, (∀ c ∈ run, p c = true) → k (run ++ rest.dropWhile p) = none := by
          intro run
          induction run with
          | nil => exact fun _ => hrest
          | cons c run ih =>
            intro hrun
            exact hk c _ (hrun c List.mem_cons_self) (ih fun d hd => hrun d (List.mem_cons_of_mem _ hd))
        have hall := hback (a :: rest.takeWhile p) (List.forall_mem_cons.2
          ⟨ha, fun c hc => List.mem_takeWhile_imp hc⟩)
        rwa [List.cons_append, List.takeWhile_append_dropWhile] at hall
    · rw [greedy, if_neg ha, List.dropWhile_cons_of_neg ha]

/-- What a plus matches at: a run and, after it, no more of the run. -/
theorem plus_eq_some_iff {k : List α → Option β}
    (hk : ∀ a rest, p a = true → k rest = none → k (a :: rest) = none) {text : List α} {b : β} :
    plus p k text = some b ↔ ∃ run rest, text = run ++ rest ∧ run ≠ [] ∧ (∀ a ∈ run, p a = true) ∧
      (∀ a ∈ rest.head?, p a = false) ∧ k rest = some b := by
  constructor
  · intro h
    cases text with
    | nil => cases h
    | cons a text =>
      rw [plus] at h
      split at h
      case isFalse => cases h
      case isTrue ha =>
        rw [greedy_eq p hk] at h
        refine ⟨a :: text.takeWhile p, text.dropWhile p, ?_, List.cons_ne_nil _ _,
          List.forall_mem_cons.2 ⟨ha, fun c hc => List.mem_takeWhile_imp hc⟩, ?_, h⟩
        · rw [List.cons_append, List.takeWhile_append_dropWhile]
        · intro c hc
          have hhead := List.head?_dropWhile_not p text
          rw [Option.mem_def.1 hc] at hhead
          simpa using hhead
  · rintro ⟨run, rest, rfl, hne, hrun, hrest, hb⟩
    obtain ⟨a, run, rfl⟩ := List.exists_cons_of_ne_nil hne
    have hdrop : (run ++ rest).dropWhile p = rest := by
      rw [List.dropWhile_append_of_pos fun c hc => hrun c (List.mem_cons_of_mem _ hc)]
      cases rest with
      | nil => rfl
      | cons c rest => rw [List.dropWhile_cons_of_neg (by simp [hrest c rfl])]
    rw [List.cons_append, plus, if_pos (hrun a List.mem_cons_self), greedy_eq p hk, hdrop, hb]

/-- A lazy star takes the shortest run after which the rest of the pattern matches. -/
theorem lazily_eq_some_iff {k : List α → Option β} {text run : List α} {b : β} :
    lazily p k text = some (run, b) ↔ ∃ rest, text = run ++ rest ∧ (∀ a ∈ run, p a = true) ∧
      k rest = some b ∧ ∀ run' rest', text = run' ++ rest' → run'.length < run.length → k rest' = none := by
  induction text generalizing run with
  | nil =>
    constructor
    · intro h
      rw [lazily, Option.map_eq_some_iff] at h
      obtain ⟨b, hb, heq⟩ := h
      obtain ⟨rfl, rfl⟩ := Prod.mk.inj heq
      exact ⟨[], rfl, nofun, hb, nofun⟩
    · rintro ⟨rest, htext, -, hb, -⟩
      obtain ⟨rfl, rfl⟩ := List.append_eq_nil_iff.1 htext.symm
      rw [lazily, hb, Option.map_some]
  | cons a text ih =>
    cases hhere : k (a :: text) with
    | some b' =>
      rw [lazily, hhere]
      constructor
      · intro h
        obtain ⟨rfl, rfl⟩ := Prod.mk.inj (Option.some.inj h)
        exact ⟨a :: text, rfl, nofun, hhere, nofun⟩
      · rintro ⟨rest, htext, -, hb, hshortest⟩
        cases run with
        | nil => rw [← hhere, htext, List.nil_append, hb]
        | cons c run =>
          have hnone := hshortest [] (a :: text) rfl (Nat.succ_pos _)
          rw [hhere] at hnone
          cases hnone
    | none =>
      simp only [lazily, hhere]
      constructor
      · intro h
        split at h
        case isFalse => cases h
        case isTrue ha =>
          obtain ⟨⟨run', b'⟩, hrest, heq⟩ := Option.map_eq_some_iff.1 h
          obtain ⟨rfl, rfl⟩ := Prod.mk.inj heq
          obtain ⟨rest, rfl, hrun, hb, hshortest⟩ := ih.1 hrest
          refine ⟨rest, rfl, List.forall_mem_cons.2 ⟨ha, hrun⟩, hb, ?_⟩
          intro shorter rest' htext hlength
          cases shorter with
          | nil => rwa [← List.nil_append rest', ← htext]
          | cons c shorter =>
            rw [List.cons_append, List.cons.injEq] at htext
            exact hshortest shorter rest' htext.2 (Nat.lt_of_succ_lt_succ hlength)
      · rintro ⟨rest, htext, hrun, hb, hshortest⟩
        cases run with
        | nil =>
          rw [List.nil_append] at htext
          rw [← htext, hhere] at hb
          cases hb
        | cons c run =>
          rw [List.cons_append, List.cons.injEq] at htext
          obtain ⟨rfl, htext⟩ := htext
          have hrest := ih.2 ⟨rest, htext, fun d hd => hrun d (List.mem_cons_of_mem _ hd), hb,
            fun shorter rest' hs hlength =>
              hshortest (a :: shorter) rest' (by rw [hs, List.cons_append]) (Nat.succ_lt_succ hlength)⟩
          rw [if_pos (hrun a List.mem_cons_self), hrest, Option.map_some]

/-- A lazy star fails when the rest of the pattern fails after each run it could take. -/
theorem lazily_eq_none_iff {k : List α → Option β} {text : List α} :
    lazily p k text = none ↔ ∀ run rest, text = run ++ rest → (∀ a ∈ run, p a = true) → k rest = none := by
  constructor
  · intro h run rest htext hrun
    induction run generalizing text with
    | nil =>
      rw [List.nil_append] at htext
      subst htext
      cases text with
      | nil => exact Option.map_eq_none_iff.1 h
      | cons a text =>
        rw [lazily] at h
        split at h
        case h_1 => cases h
        case h_2 hnone => exact hnone
    | cons a run ih =>
      subst htext
      rw [List.cons_append, lazily] at h
      split at h
      case h_1 => cases h
      case h_2 =>
        rw [if_pos (hrun a List.mem_cons_self), Option.map_eq_none_iff] at h
        exact ih h rfl fun c hc => hrun c (List.mem_cons_of_mem _ hc)
  · intro h
    rw [Option.eq_none_iff_forall_not_mem]
    rintro ⟨run, b⟩ hsome
    obtain ⟨rest, htext, hrun, hb, -⟩ := (lazily_eq_some_iff p).1 hsome
    rw [h run rest htext hrun] at hb
    cases hb

/-- A greedy star fails where the rest of the pattern fails at every place. -/
theorem greedily_eq_none {k : List α → Option β} {text : List α}
    (h : ∀ run rest, text = run ++ rest → k rest = none) : greedily p k text = none := by
  induction text with
  | nil => rw [greedily, h [] [] rfl, Option.map_none]
  | cons a text ih =>
    have hrest := ih fun run rest htext => h (a :: run) rest (by rw [htext, List.cons_append])
    rw [greedily, hrest, ite_self, h [] (a :: text) rfl]
    rfl

/-- A greedy star takes the longest run after which the rest of the pattern matches. -/
theorem greedily_of_longest {k : List α → Option β} {run rest : List α} {b : β} (hrun : ∀ a ∈ run, p a = true)
    (hb : k rest = some b)
    (hlongest : ∀ run' rest', run ++ rest = run' ++ rest' → run.length < run'.length → k rest' = none) :
    greedily p k (run ++ rest) = some (run, b) := by
  induction run with
  | nil =>
    rw [List.nil_append] at hlongest ⊢
    cases rest with
    | nil => rw [greedily, hb, Option.map_some]
    | cons a rest =>
      have hnone : greedily p k rest = none := by
        refine greedily_eq_none p fun run' rest' hsplit => ?_
        exact hlongest (a :: run') rest' (by rw [hsplit, List.cons_append]) (Nat.succ_pos _)
      rw [greedily, hnone, ite_self, hb]
      rfl
  | cons a run ih =>
    have hrest := ih (fun c hc => hrun c (List.mem_cons_of_mem _ hc)) fun run' rest' hsplit hlength =>
      hlongest (a :: run') rest' (by rw [List.cons_append, hsplit, List.cons_append]) (Nat.succ_lt_succ hlength)
    rw [List.cons_append, greedily, if_pos (hrun a List.mem_cons_self), hrest]

end Backtrack
