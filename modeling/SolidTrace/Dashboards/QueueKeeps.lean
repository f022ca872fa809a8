import Mathlib.Data.List.Nodup
import SolidTrace.Dashboards.FetchQueue

/-!
# The chart fetch queue keeps its promises

After any calls, and whenever the tasks settle, each run waits or is in flight, or its promise has been
settled once; and a free slot and a waiting run are not left without a pump.
-/

namespace SolidTrace.Dashboards

open Queue

variable {Key V E : Type}

section Invariant

/-- The runs that wait or are in flight. -/
def Queue.live (s : Queue Key V E) : List (Entry Key E) := s.inFlight ++ s.waiting

/-- What holds between the steps of the queue. -/
structure Sound (s : Queue Key V E) : Prop where
  ids : s.created.map Entry.id = List.range s.created.length
  order : (s.started ++ s.waiting).Sublist s.created
  gone : ∀ e ∈ s.created, e ∈ s.started ∨ e ∈ s.waiting ∨ s.aborted e.id = true
  flying : ∀ e, e ∈ s.inFlight ↔ e ∈ s.started ∧ s.aborted e.id = false ∧ ∀ o, s.answers e.id ≠ .delivered o
  keys : (s.live.map Entry.key).Nodup
  newest : ∀ e ∈ s.live, ∀ f ∈ s.created, f.key = e.key → f.id ≤ e.id
  waits : ∀ e ∈ s.waiting, s.aborted e.id = false
  called : ∀ e ∈ s.created, e ∈ s.started ↔ s.answers e.id ≠ .none
  answered : ∀ id e, (s.answers id = .pending e ∨ ∃ o, s.answers id = .settled e o) → e ∈ s.started ∧ e.id = id
  settled : ∀ id, s.settlements id =
    if s.aborted id then [.abortError]
    else match s.answers id with
      | .delivered o => [.outcome o]
      | _ => []
  fresh : ∀ id ≥ s.created.length, s.aborted id = false ∧ s.answers id = .none

variable {s : Queue Key V E}

/-- An entry that started was created. -/
theorem Sound.started_created (h : Sound s) {e : Entry Key E} (he : e ∈ s.started) : e ∈ s.created :=
  h.order.mem (List.mem_append_left _ he)

/-- An entry that waits was created. -/
theorem Sound.waiting_created (h : Sound s) {e : Entry Key E} (he : e ∈ s.waiting) : e ∈ s.created :=
  h.order.mem (List.mem_append_right _ he)

/-- A live entry was created. -/
theorem Sound.live_created (h : Sound s) {e : Entry Key E} (he : e ∈ s.live) : e ∈ s.created := by
  rcases List.mem_append.1 he with he | he
  · exact h.started_created ((h.flying e).1 he).1
  · exact h.waiting_created he

/-- A run is told from others by its number. -/
theorem Sound.eq_of_id (h : Sound s) {e f : Entry Key E} (he : e ∈ s.created) (hf : f ∈ s.created)
    (hid : e.id = f.id) : e = f := by
  have hnodup : (s.created.map Entry.id).Nodup := by
    rw [h.ids]
    exact List.nodup_range
  exact List.inj_on_of_nodup_map hnodup he hf hid

/-- Entries are numbered as they are created. -/
theorem Sound.id_lt (h : Sound s) {e : Entry Key E} (he : e ∈ s.created) : e.id < s.created.length := by
  have hmem := List.mem_map_of_mem (f := Entry.id) he
  rw [h.ids] at hmem
  exact List.mem_range.1 hmem

/-- A run that waits hasn't been started. -/
theorem Sound.not_started (h : Sound s) {e : Entry Key E} (he : e ∈ s.waiting) : e ∉ s.started := by
  intro hstarted
  have hcreated : (s.created.map Entry.id).Nodup := by
    rw [h.ids]
    exact List.nodup_range
  have hnodup := (hcreated.of_map _).sublist h.order
  exact (List.nodup_append.1 hnodup).2.2 e hstarted e he rfl

/-- A run that waits or is in flight is not aborted, and its promise not settled. -/
theorem Sound.live_open (h : Sound s) {e : Entry Key E} (he : e ∈ s.live) :
    s.aborted e.id = false ∧ s.settlements e.id = [] := by
  rcases List.mem_append.1 he with he | he
  · obtain ⟨-, haborted, hdelivered⟩ := (h.flying e).1 he
    refine ⟨haborted, ?_⟩
    rw [h.settled, haborted]
    cases hanswer : s.answers e.id with
    | delivered o => exact absurd hanswer (hdelivered o)
    | none => rfl
    | pending e => rfl
    | settled e o => rfl
  · have haborted := h.waits e he
    have hanswer : s.answers e.id = .none := by
      by_contra hne
      exact h.not_started he ((h.called e (h.waiting_created he)).2 hne)
    refine ⟨haborted, ?_⟩
    rw [h.settled, haborted, hanswer]
    rfl

/-- Two runs that wait or are in flight are of one key only where they are one run. -/
theorem Sound.key_iff (h : Sound s) {e f : Entry Key E} (he : e ∈ s.live) (hf : f ∈ s.live) :
    f.key = e.key ↔ f.id = e.id := by
  constructor
  · intro hkey
    rw [List.inj_on_of_nodup_map h.keys hf he hkey]
  · intro hid
    rw [h.eq_of_id (h.live_created hf) (h.live_created he) hid]

variable [DecidableEq Key]

/-- Deleting the key of a run in flight deletes that run. -/
theorem Sound.mem_delete (h : Sound s) {e f : Entry Key E} (he : e ∈ s.inFlight) :
    f ∈ delete s.inFlight e.key ↔ f ∈ s.inFlight ∧ f.id ≠ e.id := by
  rw [delete, List.mem_filter]
  refine and_congr_right fun hf => ?_
  have hkeys := h.keys
  rw [live, List.map_append, List.nodup_append] at hkeys
  rw [decide_eq_true_iff]
  constructor
  · rintro hne hid
    have heq := h.eq_of_id (h.live_created (List.mem_append_left _ hf))
      (h.live_created (List.mem_append_left _ he)) hid
    exact hne (congrArg Entry.key heq)
  · rintro hne hkey
    exact hne (congrArg Entry.id (List.inj_on_of_nodup_map hkeys.1 hf he hkey))

/-- The entry of a key is in flight and has the key. -/
theorem get_mem {inFlight : List (Entry Key E)} {key : Key} {e : Entry Key E} (h : Queue.get inFlight key = some e) :
    e ∈ inFlight ∧ e.key = key :=
  ⟨List.mem_of_find?_eq_some h, by simpa using List.find?_some h⟩

/-- A key's run is the one that waits or is in flight. -/
theorem find_spec (s : Queue Key V E) (key : Key) :
    (∀ e, s.find key = some e → e ∈ s.live ∧ e.key = key) ∧
      (s.find key = none → ∀ e ∈ s.live, e.key ≠ key) := by
  constructor
  · intro e he
    rw [find, Option.or_eq_some_iff] at he
    rcases he with he | ⟨-, he⟩
    · exact ⟨List.mem_append_left _ (get_mem he).1, (get_mem he).2⟩
    · exact ⟨List.mem_append_right _ (List.mem_of_find?_eq_some he), by simpa using List.find?_some he⟩
  · intro hnone e he
    rw [find, Option.or_eq_none_iff, Queue.get, List.find?_eq_none, List.find?_eq_none] at hnone
    rcases List.mem_append.1 he with he | he
    · simpa using hnone.1 e he
    · simpa using hnone.2 e he

end Invariant

section Aborting

variable {s : Queue Key V E}

/-- Taking an entry out of those waiting. -/
theorem splice_eq {waiting a b : List (Entry Key E)} {e : Entry Key E} (hsplit : waiting = a ++ e :: b)
    (ha : ∀ f ∈ a, f.id ≠ e.id) : splice waiting e = a ++ b := by
  have hindex : waiting.findIdx? (·.id = e.id) = some a.length := by
    rw [hsplit, List.findIdx?_append, List.findIdx?_eq_none_iff.2 (by simpa using ha)]
    simp [List.findIdx?_cons]
  rw [splice, hindex, hsplit]
  simp [List.eraseIdx_append]

/-- A queue less one of its runs, which is aborted and its promise rejected. -/
def Queue.without (s : Queue Key V E) (e : Entry Key E) (inFlight waiting : List (Entry Key E)) :
    Queue Key V E :=
  { s with
    aborted := Function.update s.aborted e.id true
    settlements := Function.update s.settlements e.id (s.settlements e.id ++ [.abortError])
    inFlight := inFlight
    waiting := waiting }

/-- A run that waits or is in flight can be taken out of both. -/
theorem Sound.without (h : Sound s) {e : Entry Key E} (he : e ∈ s.live) {inFlight waiting : List (Entry Key E)}
    (hflying : inFlight.Sublist s.inFlight) (hwaiting : waiting.Sublist s.waiting)
    (hflies : ∀ f, f ∈ inFlight ↔ f ∈ s.inFlight ∧ f.id ≠ e.id)
    (hwaits : ∀ f, f ∈ waiting ↔ f ∈ s.waiting ∧ f.id ≠ e.id) : Sound (s.without e inFlight waiting) := by
  have hlive : (s.without e inFlight waiting).live.Sublist s.live := hflying.append hwaiting
  have hcreated := h.live_created he
  refine ⟨h.ids, ?_, ?_, ?_, ?_, ?_, ?_, h.called, h.answered, ?_, ?_⟩
  · exact (List.Sublist.append_left hwaiting _).trans h.order
  · intro f hf
    by_cases hid : f.id = e.id
    · right; right
      simp [Queue.without, hid]
    · rcases h.gone f hf with hstarted | hwaits' | haborted
      · exact .inl hstarted
      · exact .inr (.inl ((hwaits f).2 ⟨hwaits', hid⟩))
      · refine .inr (.inr ?_)
        simp only [Queue.without, Function.update_of_ne hid, haborted]
  · intro f
    change f ∈ inFlight ↔ _
    rw [hflies, h.flying]
    by_cases hid : f.id = e.id
    · simp [Queue.without, hid]
    · simp [Queue.without, hid]
  · exact h.keys.sublist (hlive.map _)
  · exact fun f hf => h.newest f (hlive.mem hf)
  · intro f hf
    obtain ⟨hf', hid⟩ := (hwaits f).1 hf
    simp only [Queue.without, Function.update_of_ne hid]
    exact h.waits f hf'
  · intro id
    by_cases hid : id = e.id
    · subst hid
      simp [Queue.without, (h.live_open he).2]
    · simp only [Queue.without, Function.update_of_ne hid]
      exact h.settled id
  · intro id hid
    have hne : id ≠ e.id := (lt_of_lt_of_le (h.id_lt hcreated) hid).ne'
    simp only [Queue.without, Function.update_of_ne hne]
    exact h.fresh id hid

variable [DecidableEq Key]

/-- Aborting a run takes it, and no other, out of the queue. -/
theorem Sound.abort (h : Sound s) {e : Entry Key E} (he : e ∈ s.live) :
    ∃ inFlight waiting, s.abort e = s.without e inFlight waiting ∧ Sound (s.abort e) ∧
      (∀ f, f ∈ inFlight ↔ f ∈ s.inFlight ∧ f.id ≠ e.id) ∧
      (∀ f, f ∈ waiting ↔ f ∈ s.waiting ∧ f.id ≠ e.id) ∧ inFlight.length ≤ s.inFlight.length := by
  have hcreated := h.live_created he
  rcases List.mem_append.1 he with hfly | hwait
  · have hget : (Queue.get s.inFlight e.key).map Entry.id = some e.id := by
      obtain ⟨f, hf⟩ := Option.isSome_iff_exists.1
        (List.find?_isSome (p := fun f : Entry Key E => f.key = e.key).2 ⟨e, hfly, by simp⟩)
      obtain ⟨hmem, hkey⟩ := get_mem hf
      have hkeys := h.keys
      rw [live, List.map_append, List.nodup_append] at hkeys
      rw [Queue.get, hf, List.inj_on_of_nodup_map hkeys.1 hmem hfly hkey]
      rfl
    have habort : s.abort e = s.without e (delete s.inFlight e.key) s.waiting := if_pos hget
    have hflies (f : Entry Key E) := h.mem_delete (f := f) hfly
    have hwaits (f : Entry Key E) : f ∈ s.waiting ↔ f ∈ s.waiting ∧ f.id ≠ e.id := by
      refine (and_iff_left_of_imp fun hf hid => ?_).symm
      have heq := h.eq_of_id (h.waiting_created hf) hcreated hid
      exact h.not_started hf (heq ▸ ((h.flying e).1 hfly).1)
    refine ⟨_, _, habort, ?_, hflies, hwaits, List.length_filter_le _ _⟩
    rw [habort]
    exact h.without he List.filter_sublist (List.Sublist.refl _) hflies hwaits
  · have hstarted := h.not_started hwait
    have hflies (f : Entry Key E) : f ∈ s.inFlight ↔ f ∈ s.inFlight ∧ f.id ≠ e.id := by
      refine (and_iff_left_of_imp fun hf hid => ?_).symm
      have hstarted' := ((h.flying f).1 hf).1
      exact hstarted (h.eq_of_id (h.started_created hstarted') hcreated hid ▸ hstarted')
    have hget : ¬ (Queue.get s.inFlight e.key).map Entry.id = some e.id := by
      intro hsome
      obtain ⟨f, hf, hid⟩ := Option.map_eq_some_iff.1 hsome
      exact ((hflies f).1 (get_mem hf).1).2 hid
    obtain ⟨a, b, hsplit, ha⟩ := List.eq_append_cons_of_mem hwait
    have hnodup : (s.waiting.map Entry.id).Nodup := by
      have hids : (s.created.map Entry.id).Nodup := by
        rw [h.ids]
        exact List.nodup_range
      exact hids.sublist (((List.sublist_append_right _ _).trans h.order).map _)
    rw [hsplit, List.map_append, List.map_cons, List.nodup_append, List.nodup_cons] at hnodup
    have hbefore : ∀ f ∈ a, f.id ≠ e.id := fun f hf =>
      hnodup.2.2 _ (List.mem_map_of_mem hf) _ List.mem_cons_self
    have hafter : ∀ f ∈ b, f.id ≠ e.id := fun f hf hid =>
      hnodup.2.1.1 (hid ▸ List.mem_map_of_mem hf)
    have habort : s.abort e = s.without e s.inFlight (a ++ b) := by
      rw [Queue.abort, ← splice_eq hsplit hbefore]
      exact if_neg hget
    have hwaits (f : Entry Key E) : f ∈ a ++ b ↔ f ∈ s.waiting ∧ f.id ≠ e.id := by
      rw [hsplit, List.mem_append, List.mem_append, List.mem_cons]
      constructor
      · rintro (hf | hf)
        · exact ⟨.inl hf, hbefore f hf⟩
        · exact ⟨.inr (.inr hf), hafter f hf⟩
      · rintro ⟨hf | rfl | hf, hid⟩
        · exact .inl hf
        · exact absurd rfl hid
        · exact .inr hf
    refine ⟨_, _, habort, ?_, hflies, hwaits, le_rfl⟩
    have hsub : (a ++ b).Sublist s.waiting := by
      rw [hsplit]
      exact List.Sublist.append_left (List.sublist_cons_self e b) a
    rw [habort]
    exact h.without he (List.Sublist.refl _) hsub hflies hwaits

/-- Aborting a run ends it and no other, and marks it and no other as aborted. -/
theorem Sound.abort_effect (h : Sound s) {e : Entry Key E} (he : e ∈ s.live) :
    (∀ f, f ∈ (s.abort e).live ↔ f ∈ s.live ∧ f.id ≠ e.id) ∧
      (∀ id, (s.abort e).aborted id = true ↔ s.aborted id = true ∨ e.id = id) ∧
      (s.abort e).created = s.created ∧ (s.abort e).answers = s.answers := by
  obtain ⟨inFlight, waiting, habort, -, hflies, hwaits, -⟩ := h.abort he
  rw [habort]
  refine ⟨fun f => ?_, fun id => ?_, rfl, rfl⟩
  · change f ∈ inFlight ++ waiting ↔ f ∈ s.inFlight ++ s.waiting ∧ _
    rw [List.mem_append, List.mem_append, hflies, hwaits, or_and_right]
  · by_cases hid : e.id = id
    · subst hid
      simp [Queue.without]
    · simp [Queue.without, hid, Function.update_of_ne (Ne.symm hid)]

end Aborting

section Pumping

variable {s : Queue Key V E}

/-- The outcome of a run's task, once it has one. -/
def Answer.outcome : Answer Key V E → Option (Outcome V E)
  | .settled _ o => some o
  | .delivered o => some o
  | _ => Option.none

/-- One state of a queue follows another by starting some of its runs: the same runs wait or are in
flight, and a task has an outcome that had one, or that throws. -/
structure Carried (s s' : Queue Key V E) : Prop where
  live : s'.live = s.live
  created : s'.created = s.created
  aborted : s'.aborted = s.aborted
  kept : ∀ id o, (s.answers id).outcome = some o → (s'.answers id).outcome = some o
  own : ∀ id o, (s'.answers id).outcome = some o → (s.answers id).outcome = some o ∨
    ∃ e ∈ s.live, e.id = id ∧ ∃ error, e.throws = some error ∧ o = .rejected error

/-- Nothing is lost where nothing is done. -/
theorem Carried.refl (s : Queue Key V E) : Carried s s :=
  ⟨rfl, rfl, rfl, fun _ _ h => h, fun _ _ h => .inl h⟩

/-- What is carried through two steps is carried through both. -/
theorem Carried.trans {s t u : Queue Key V E} (h : Carried s t) (h' : Carried t u) : Carried s u := by
  refine ⟨h'.live.trans h.live, h'.created.trans h.created, h'.aborted.trans h.aborted,
    fun id o hs => h'.kept id o (h.kept id o hs), fun id o hu => ?_⟩
  cases h'.own id o hu with
  | inl ht => exact h.own id o ht
  | inr hthrown => exact .inr (h.live ▸ hthrown)

/-- The answer of a task as it is called. -/
def Entry.called (e : Entry Key E) : Answer Key V E :=
  e.throws.elim (.pending e) fun error => .settled e (.rejected error)

/-- A task that is called has an answer, which is its own and not delivered yet. -/
theorem Entry.called_spec (e : Entry Key E) : (e.called : Answer Key V E) ≠ .none ∧
    (∀ o, (e.called : Answer Key V E) ≠ .delivered o) ∧
    ∀ f, (e.called : Answer Key V E) = .pending f ∨ (∃ o, (e.called : Answer Key V E) = .settled f o) → f = e := by
  cases hthrows : e.throws with
  | none => simp_all [Entry.called, eq_comm]
  | some error => simp_all [Entry.called, eq_comm]

/-- Those in flight are those started whose task is called and not delivered, one more among them. -/
theorem Sound.start_flying (h : Sound s) {e : Entry Key E} (hmem : e ∈ s.waiting) (f : Entry Key E) :
    f ∈ s.inFlight ++ [e] ↔ f ∈ s.started ++ [e] ∧ s.aborted f.id = false ∧
      ∀ o, Function.update s.answers e.id e.called f.id ≠ .delivered o := by
  have hstarted := h.not_started hmem
  simp only [List.mem_append, List.mem_singleton]
  by_cases hid : f.id = e.id
  · constructor
    · intro hf
      cases hf with
      | inl hf =>
        have hf' := ((h.flying f).1 hf).1
        exact absurd (h.eq_of_id (h.started_created hf') (h.waiting_created hmem) hid ▸ hf') hstarted
      | inr hsame =>
        subst hsame
        refine ⟨.inr rfl, h.waits f hmem, ?_⟩
        rw [Function.update_self]
        exact f.called_spec.2.1
    · intro hf
      cases hf.1 with
      | inl hf => exact absurd (h.eq_of_id (h.started_created hf) (h.waiting_created hmem) hid ▸ hf) hstarted
      | inr hsame => exact .inr hsame
  · have hne : f ≠ e := fun heq => hid (congrArg Entry.id heq)
    simp only [hne, or_false, Function.update_of_ne hid]
    exact h.flying f

/-- A run has started once its task is called. -/
theorem Sound.start_called (h : Sound s) {e : Entry Key E} (hmem : e ∈ s.waiting) {f : Entry Key E}
    (hf : f ∈ s.created) :
    f ∈ s.started ++ [e] ↔ Function.update s.answers e.id e.called f.id ≠ .none := by
  simp only [List.mem_append, List.mem_singleton]
  by_cases hid : f.id = e.id
  · obtain rfl := h.eq_of_id hf (h.waiting_created hmem) hid
    rw [Function.update_self]
    exact iff_of_true (.inr rfl) f.called_spec.1
  · have hne : f ≠ e := fun heq => hid (congrArg Entry.id heq)
    simp only [hne, or_false, Function.update_of_ne hid]
    exact h.called f hf

/-- A new run waits, its key's only one. -/
theorem Sound.push (h : Sound s) {key : Key} (hkey : ∀ e ∈ s.live, e.key ≠ key) (throws : Option E) :
    Sound (s.push key throws) := by
  set e : Entry Key E := ⟨s.created.length, key, throws⟩ with he
  have hnew := h.fresh s.created.length le_rfl
  have hlive : (s.push key throws).live = s.live ++ [e] := by simp [live, Queue.push, he]
  refine ⟨?_, ?_, ?_, ?_, ?_, ?_, ?_, ?_, h.answered, h.settled, ?_⟩
  · simp only [Queue.push, List.map_append, List.length_append, List.length_singleton, List.range_succ, h.ids]
    rfl
  · simp only [Queue.push]
    rw [← List.append_assoc]
    exact h.order.append_right _
  · intro f hf
    rcases List.mem_append.1 hf with hf | hf
    · rcases h.gone f hf with hstarted | hwaits | haborted
      · exact .inl hstarted
      · exact .inr (.inl (List.mem_append_left _ hwaits))
      · exact .inr (.inr haborted)
    · exact .inr (.inl (List.mem_append_right _ hf))
  · exact h.flying
  · rw [hlive, List.map_append, List.nodup_append]
    refine ⟨h.keys, List.nodup_singleton _, ?_⟩
    intro k hk k' hk'
    obtain ⟨f, hf, rfl⟩ := List.mem_map.1 hk
    rw [List.mem_singleton.1 hk']
    exact hkey f hf
  · intro f hf g hg hsame
    rw [hlive] at hf
    rcases List.mem_append.1 hf with hf | hf
    · rcases List.mem_append.1 hg with hg | hg
      · exact h.newest f hf g hg hsame
      · rw [List.mem_singleton.1 hg] at hsame
        exact absurd hsame.symm (hkey f hf)
    · rw [List.mem_singleton.1 hf]
      rcases List.mem_append.1 hg with hg | hg
      · exact (h.id_lt hg).le
      · rw [List.mem_singleton.1 hg]
  · intro f hf
    rcases List.mem_append.1 hf with hf | hf
    · exact h.waits f hf
    · rw [List.mem_singleton.1 hf]
      exact hnew.1
  · intro f hf
    rcases List.mem_append.1 hf with hf | hf
    · exact h.called f hf
    · rw [List.mem_singleton.1 hf]
      refine iff_of_false (fun hstarted => ?_) (fun hne => hne hnew.2)
      exact absurd (h.id_lt (h.started_created hstarted)) (lt_irrefl _)
  · intro id hid
    simp only [Queue.push, List.length_append, List.length_singleton] at hid
    exact h.fresh id (by omega)

variable [DecidableEq Key]

/-- A run of a key that isn't in flight is added to those that are. -/
theorem set_eq {inFlight : List (Entry Key E)} {e : Entry Key E} (h : ∀ f ∈ inFlight, f.key ≠ e.key) :
    Queue.set inFlight e = inFlight ++ [e] := by
  have hnone : ¬ inFlight.any (·.key = e.key) = true := by
    simpa [List.any_eq_true] using h
  exact if_neg hnone

/-- Starting a run moves it from those waiting to those in flight, and calls its task. -/
theorem Sound.start_eq (h : Sound s) {e : Entry Key E} {rest : List (Entry Key E)}
    (hwaiting : s.waiting = e :: rest) : Queue.start { s with waiting := rest } e =
      { s with
        waiting := rest
        inFlight := s.inFlight ++ [e]
        started := s.started ++ [e]
        answers := Function.update s.answers e.id e.called } := by
  have hkeys := h.keys
  rw [live, hwaiting, List.map_append, List.map_cons, List.nodup_append] at hkeys
  have hset : Queue.set s.inFlight e = s.inFlight ++ [e] := by
    apply set_eq
    intro f hf
    exact hkeys.2.2 _ (List.mem_map_of_mem hf) _ List.mem_cons_self
  rw [Queue.start, hset, Entry.called]
  cases e.throws <;> rfl

/-- The first of those waiting is started. -/
theorem Sound.start (h : Sound s) {e : Entry Key E} {rest : List (Entry Key E)} (hwaiting : s.waiting = e :: rest) :
    Sound (Queue.start { s with waiting := rest } e) ∧
      (Queue.start { s with waiting := rest } e).inFlight = s.inFlight ++ [e] := by
  have hmem : e ∈ s.waiting := hwaiting ▸ List.mem_cons_self
  have hstate := h.start_eq hwaiting
  have hlive : (s.inFlight ++ [e]) ++ rest = s.live := by rw [live, hwaiting, List.append_assoc]; rfl
  refine ⟨?_, by rw [hstate]⟩
  rw [hstate]
  refine ⟨h.ids, ?_, ?_, h.start_flying hmem, ?_, ?_, ?_, fun f hf => h.start_called hmem hf, ?_, ?_, ?_⟩
  · simp only [List.append_assoc, List.singleton_append]
    exact hwaiting ▸ h.order
  · intro f hf
    rcases h.gone f hf with hf' | hf' | haborted
    · exact .inl (List.mem_append_left _ hf')
    · rw [hwaiting] at hf'
      cases List.mem_cons.1 hf' with
      | inl hsame => exact .inl (List.mem_append_right _ (List.mem_singleton.2 hsame))
      | inr hf' => exact .inr (.inl hf')
    · exact .inr (.inr haborted)
  · change (((s.inFlight ++ [e]) ++ rest).map Entry.key).Nodup
    rw [hlive]
    exact h.keys
  · change ∀ f ∈ (s.inFlight ++ [e]) ++ rest, _
    rw [hlive]
    exact h.newest
  · exact fun f hf => h.waits f (hwaiting ▸ List.mem_cons_of_mem _ hf)
  · intro id f hf
    by_cases hid : id = e.id
    · subst hid
      simp only [Function.update_self] at hf
      rw [e.called_spec.2.2 f hf]
      exact ⟨List.mem_append_right _ (List.mem_singleton_self _), rfl⟩
    · simp only [Function.update_of_ne hid] at hf
      obtain ⟨hf', hid'⟩ := h.answered id f hf
      exact ⟨List.mem_append_left _ hf', hid'⟩
  · intro id
    by_cases hid : id = e.id
    · subst hid
      have hopen := h.live_open (List.mem_append_right _ hmem)
      simp only [Function.update_self, hopen.1, hopen.2, Entry.called]
      cases e.throws <;> rfl
    · simp only [Function.update_of_ne hid]
      exact h.settled id
  · intro id hid
    have hne : id ≠ e.id := (lt_of_lt_of_le (h.id_lt (h.waiting_created hmem)) hid).ne'
    simp only [Function.update_of_ne hne]
    exact h.fresh id hid

/-- Nothing waits, or each slot is taken. -/
def Queue.Full (limit : ℕ) (s : Queue Key V E) : Prop := s.waiting = [] ∨ limit ≤ s.inFlight.length

/-- A pump fills the slots, and keeps those in flight. -/
theorem Sound.pump {limit : ℕ} (h : Sound s) (hslots : s.inFlight.length ≤ limit) :
    Sound (s.pump limit) ∧ (s.pump limit).inFlight.length ≤ limit ∧ (s.pump limit).Full limit ∧
      s.inFlight <+: (s.pump limit).inFlight := by
  suffices hall : ∀ waiting (s : Queue Key V E), Sound s → s.inFlight.length ≤ limit → s.waiting = waiting →
      Sound (pumpFrom limit waiting s) ∧ (pumpFrom limit waiting s).inFlight.length ≤ limit ∧
        (pumpFrom limit waiting s).Full limit ∧ s.inFlight <+: (pumpFrom limit waiting s).inFlight from
    hall s.waiting s h hslots rfl
  intro waiting
  induction waiting with
  | nil => exact fun s h hslots hwaiting => ⟨h, hslots, .inl hwaiting, List.prefix_rfl⟩
  | cons e rest ih =>
    intro s h hslots hwaiting
    rw [pumpFrom]
    split
    case isFalse hfull => exact ⟨h, hslots, .inr (Nat.le_of_not_lt hfull), List.prefix_rfl⟩
    case isTrue hfree =>
      obtain ⟨hsound, hflying⟩ := h.start hwaiting
      obtain ⟨hsound', hslots', hfull, hpre⟩ := ih _ hsound (by
        rw [hflying, List.length_append, List.length_singleton]
        exact hfree) rfl
      refine ⟨hsound', hslots', hfull, ?_⟩
      rw [hflying] at hpre
      exact (List.prefix_append _ _).trans hpre

/-- Starting the first of those waiting carries the others. -/
theorem Sound.start_carried (h : Sound s) {e : Entry Key E} {rest : List (Entry Key E)}
    (hwaiting : s.waiting = e :: rest) : Carried s (Queue.start { s with waiting := rest } e) := by
  have hmem : e ∈ s.waiting := hwaiting ▸ List.mem_cons_self
  have hlive : e ∈ s.live := List.mem_append_right _ hmem
  have hanswer : s.answers e.id = .none := by
    by_contra hne
    exact h.not_started hmem ((h.called e (h.waiting_created hmem)).2 hne)
  refine ⟨?_, rfl, rfl, fun id o hs => ?_, fun id o hs => ?_⟩
  · change (Queue.start { s with waiting := rest } e).inFlight ++ rest = s.inFlight ++ s.waiting
    rw [(h.start hwaiting).2, hwaiting, List.append_assoc]
    rfl
  · have hne : id ≠ e.id := by
      intro heq
      rw [heq, hanswer] at hs
      cases hs
    simp only [Queue.start, Function.update_of_ne hne]
    exact hs
  · by_cases hid : id = e.id
    · subst hid
      simp only [Queue.start, Function.update_self] at hs
      cases hthrows : e.throws with
      | none =>
        rw [hthrows] at hs
        cases hs
      | some error =>
        rw [hthrows] at hs
        exact .inr ⟨e, hlive, rfl, error, hthrows, (Option.some.inj hs).symm⟩
    · simp only [Queue.start, Function.update_of_ne hid] at hs
      exact .inl hs

/-- A pump carries the queue's runs. -/
theorem Sound.pump_carried (h : Sound s) (limit : ℕ) : Carried s (s.pump limit) := by
  suffices hall : ∀ waiting (s : Queue Key V E), Sound s → s.waiting = waiting →
      Carried s (pumpFrom limit waiting s) from hall s.waiting s h rfl
  intro waiting
  induction waiting with
  | nil => exact fun s _ _ => .refl s
  | cons e rest ih =>
    intro s h hwaiting
    rw [pumpFrom]
    split
    case isFalse hfull => exact .refl s
    case isTrue hfree => exact (h.start_carried hwaiting).trans (ih _ (h.start hwaiting).1 rfl)

end Pumping

section Steps

variable {limit : ℕ} {s : Queue Key V E}

/-- What holds after each event: the slots are kept, and a free slot and a run that waits have a pump. -/
structure Steady (limit : ℕ) (s : Queue Key V E) : Prop extends Sound s where
  slots : s.inFlight.length ≤ limit
  pumped : s.Full limit ∨ 0 < s.pumps

/-- A new queue is steady. -/
theorem steady_init : Steady limit (Queue.init : Queue Key V E) where
  ids := rfl
  order := List.Sublist.refl _
  gone := nofun
  flying e := by simp [Queue.init]
  keys := List.nodup_nil
  newest := nofun
  waits := nofun
  called := nofun
  answered := by
    rintro id e (h | ⟨o, h⟩) <;> cases h
  settled _ := rfl
  fresh _ _ := ⟨rfl, rfl⟩
  slots := Nat.zero_le _
  pumped := .inl (.inl rfl)

/-- A task's promise settles, and nothing follows yet. -/
theorem Steady.answer (h : Steady limit s) {id : ℕ} {e : Entry Key E} (hanswer : s.answers id = .pending e)
    (o : Outcome V E) : Steady limit { s with answers := Function.update s.answers id (.settled e o) } := by
  refine ⟨⟨h.ids, h.order, h.gone, ?_, h.keys, h.newest, h.waits, ?_, ?_, ?_, ?_⟩, h.slots, h.pumped⟩
  · intro f
    by_cases hid : f.id = id
    · simp [h.flying, hid, hanswer]
    · simp only [Function.update_of_ne hid]
      exact h.flying f
  · intro f hf
    by_cases hid : f.id = id
    · simp [h.called f hf, hid, hanswer]
    · simp only [Function.update_of_ne hid]
      exact h.called f hf
  · intro id' f hf
    by_cases hid : id' = id
    · subst hid
      simp only [Function.update_self] at hf
      obtain rfl : e = f := by simp_all
      exact h.answered id' e (.inl hanswer)
    · simp only [Function.update_of_ne hid] at hf
      exact h.answered id' f hf
  · intro id'
    rw [h.settled]
    by_cases hid : id' = id
    · subst hid
      simp [hanswer]
    · simp only [Function.update_of_ne hid]
  · intro id' hid'
    have hne : id' ≠ id := by
      rintro rfl
      rw [(h.fresh id' hid').2] at hanswer
      cases hanswer
    simp only [Function.update_of_ne hne]
    exact h.fresh id' hid'

/-- What follows an aborted run's promise does nothing to the queue. -/
theorem Sound.ignore (h : Sound s) {id : ℕ} {e : Entry Key E} {o : Outcome V E}
    (hanswer : s.answers id = .settled e o) (haborted : s.aborted id = true) :
    Sound { s with answers := Function.update s.answers id (.delivered o) } := by
  refine ⟨h.ids, h.order, h.gone, ?_, h.keys, h.newest, h.waits, ?_, ?_, ?_, ?_⟩
  · intro f
    by_cases hid : f.id = id
    · simp [h.flying, hid, haborted]
    · simp only [Function.update_of_ne hid]
      exact h.flying f
  · intro f hf
    by_cases hid : f.id = id
    · simp [h.called f hf, hid, hanswer]
    · simp only [Function.update_of_ne hid]
      exact h.called f hf
  · intro id' f hf
    by_cases hid : id' = id
    · subst hid
      simp at hf
    · simp only [Function.update_of_ne hid] at hf
      exact h.answered id' f hf
  · intro id'
    rw [h.settled]
    by_cases hid : id' = id
    · subst hid
      simp [haborted]
    · simp only [Function.update_of_ne hid]
  · intro id' hid'
    have hne : id' ≠ id := by
      rintro rfl
      rw [(h.fresh id' hid').2] at hanswer
      cases hanswer
    simp only [Function.update_of_ne hne]
    exact h.fresh id' hid'

variable [DecidableEq Key]

/-- Running a task keeps the queue steady. -/
theorem Steady.run (h : Steady limit s) (key : Key) (throws : Option E) : Steady limit (s.run limit key throws) := by
  obtain ⟨hsome, hnone⟩ := find_spec s key
  have hpush : ∀ s' : Queue Key V E, Sound s' → s'.inFlight.length ≤ limit → (∀ e ∈ s'.live, e.key ≠ key) →
      Steady limit ((s'.push key throws).pump limit) := by
    intro s' hsound hslots hkey
    obtain ⟨hpumped, hslots', hfull, -⟩ := (hsound.push hkey throws).pump hslots
    exact ⟨hpumped, hslots', .inl hfull⟩
  rw [Queue.run]
  cases hfind : s.find key with
  | none => exact hpush s h.toSound h.slots (hnone hfind)
  | some older =>
    obtain ⟨hlive, hkey⟩ := hsome older hfind
    obtain ⟨inFlight, waiting, habort, hsound, hflies, hwaits, hlength⟩ := h.abort hlive
    refine hpush (s.abort older) hsound ?_ ?_
    · rw [habort]
      exact hlength.trans h.slots
    · intro e he hsame
      -- Another run of the key in the queue would be there beside the one aborted.
      rw [habort] at he
      have hin : e ∈ s.live ∧ e.id ≠ older.id := by
        rcases List.mem_append.1 he with he | he
        · exact ⟨List.mem_append_left _ ((hflies e).1 he).1, ((hflies e).1 he).2⟩
        · exact ⟨List.mem_append_right _ ((hwaits e).1 he).1, ((hwaits e).1 he).2⟩
      exact hin.2 (congrArg Entry.id (List.inj_on_of_nodup_map h.keys hin.1 hlive (hsame.trans hkey.symm)))

/-- Cancelling a key keeps the queue steady. -/
theorem Steady.cancel (h : Steady limit s) (key : Key) : Steady limit (s.cancel key) := by
  rw [Queue.cancel]
  cases hfind : s.find key with
  | none => exact h
  | some e =>
    obtain ⟨hlive, -⟩ := (find_spec s key).1 e hfind
    obtain ⟨inFlight, waiting, habort, hsound, -, -, hlength⟩ := h.abort hlive
    refine ⟨⟨hsound.ids, hsound.order, hsound.gone, hsound.flying, hsound.keys, hsound.newest, hsound.waits,
      hsound.called, hsound.answered, hsound.settled, hsound.fresh⟩, ?_, .inr (Nat.succ_pos _)⟩
    simp only [habort]
    exact hlength.trans h.slots

/-- Aborting some of the queue's runs, one after another, leaves the others. -/
theorem Sound.abortEach (h : Sound s) (hslots : s.inFlight.length ≤ limit) {es : List (Entry Key E)}
    (hes : ∀ e ∈ es, e ∈ s.live) (hnodup : es.Nodup) :
    Sound (es.foldl Queue.abort s) ∧ (es.foldl Queue.abort s).inFlight.length ≤ limit ∧
      (∀ f, f ∈ (es.foldl Queue.abort s).live ↔ f ∈ s.live ∧ f ∉ es) ∧
      (∀ id, (es.foldl Queue.abort s).aborted id = true ↔ s.aborted id = true ∨ ∃ e ∈ es, e.id = id) ∧
      (es.foldl Queue.abort s).created = s.created ∧ (es.foldl Queue.abort s).answers = s.answers := by
  induction es generalizing s with
  | nil => exact ⟨h, hslots, by simp, by simp, rfl, rfl⟩
  | cons e es ih =>
    obtain ⟨he, hes⟩ := List.forall_mem_cons.1 hes
    obtain ⟨hnot, hnodup⟩ := List.nodup_cons.1 hnodup
    obtain ⟨inFlight, waiting, habort, hsound, -, -, hlength⟩ := h.abort he
    obtain ⟨hlive, haborted, hcreated, hanswers⟩ := h.abort_effect he
    have hes' : ∀ f ∈ es, f ∈ (s.abort e).live := by
      intro f hf
      refine (hlive f).2 ⟨hes f hf, fun hid => hnot ?_⟩
      exact h.eq_of_id (h.live_created (hes f hf)) (h.live_created he) hid ▸ hf
    have hslots' : (s.abort e).inFlight.length ≤ limit := by
      rw [habort]
      exact hlength.trans hslots
    obtain ⟨hsound', hslots'', hlive', haborted', hcreated', hanswers'⟩ := ih hsound hslots' hes' hnodup
    refine ⟨hsound', hslots'', fun f => ?_, fun id => ?_, hcreated'.trans hcreated, hanswers'.trans hanswers⟩
    · rw [List.foldl_cons, hlive', hlive, List.mem_cons, not_or, and_assoc]
      apply and_congr_right
      intro hf
      apply and_congr_left
      intro _
      rw [not_iff_not]
      exact ⟨h.eq_of_id (h.live_created hf) (h.live_created he), congrArg Entry.id⟩
    · rw [List.foldl_cons, haborted', haborted, List.exists_mem_cons_iff, or_assoc]

/-- Aborting all the queue's runs leaves none. -/
theorem Steady.abortAll_live (h : Steady limit s) : s.abortAll.live = [] := by
  obtain ⟨-, -, hlive, -⟩ := h.abortEach h.slots (fun e (he : e ∈ s.live) => he) h.keys.of_map
  rw [List.eq_nil_iff_forall_not_mem]
  intro f hf
  obtain ⟨hin, hnot⟩ := (hlive f).1 hf
  exact hnot hin

/-- Aborting all keeps the queue steady. -/
theorem Steady.abortAll (h : Steady limit s) : Steady limit s.abortAll := by
  obtain ⟨hsound, hslots, -⟩ := h.abortEach h.slots (fun e (he : e ∈ s.live) => he) h.keys.of_map
  exact ⟨hsound, hslots, .inl (.inl (List.append_eq_nil_iff.1 h.abortAll_live).2)⟩

/-- A run that wasn't aborted leaves its slot when its promise is settled. -/
theorem Sound.deliver (h : Sound s) {id : ℕ} {e : Entry Key E} {o : Outcome V E}
    (hanswer : s.answers id = .settled e o) (haborted : s.aborted id = false) :
    e ∈ s.inFlight ∧ Sound { s with
      answers := Function.update s.answers id (.delivered o)
      inFlight := delete s.inFlight e.key
      settlements := Function.update s.settlements id (s.settlements id ++ [.outcome o]) } := by
  obtain ⟨hstarted, rfl⟩ := h.answered id e (.inr ⟨o, hanswer⟩)
  have hfly : e ∈ s.inFlight := (h.flying e).2 ⟨hstarted, haborted, by simp [hanswer]⟩
  have hsub : (delete s.inFlight e.key ++ s.waiting).Sublist s.live :=
    List.Sublist.append List.filter_sublist (List.Sublist.refl _)
  refine ⟨hfly, h.ids, h.order, h.gone, ?_, h.keys.sublist (hsub.map _), fun f hf => h.newest f (hsub.mem hf),
    h.waits, ?_, ?_, ?_, ?_⟩
  · intro f
    simp only
    rw [h.mem_delete hfly]
    by_cases hid : f.id = e.id
    · simp [hid]
    · simp only [Function.update_of_ne hid, ne_eq, hid, not_false_eq_true, and_true]
      exact h.flying f
  · intro f hf
    by_cases hid : f.id = e.id
    · simp [h.called f hf, hid, hanswer]
    · simp only [Function.update_of_ne hid]
      exact h.called f hf
  · intro id' f hf
    by_cases hid : id' = e.id
    · subst hid
      simp at hf
    · simp only [Function.update_of_ne hid] at hf
      exact h.answered id' f hf
  · intro id'
    by_cases hid : id' = e.id
    · subst hid
      simp [haborted, (h.live_open (List.mem_append_left _ hfly)).2]
    · simp only [Function.update_of_ne hid]
      exact h.settled id'
  · intro id' hid'
    have hne : id' ≠ e.id := (lt_of_lt_of_le (h.id_lt (h.started_created hstarted)) hid').ne'
    simp only [Function.update_of_ne hne]
    exact h.fresh id' hid'

/-- What follows a settled promise. It takes no other run from its slot, and nothing when its run was
aborted. -/
theorem Steady.callback (h : Steady limit s) {id : ℕ} {e : Entry Key E} {o : Outcome V E}
    (hanswer : s.answers id = .settled e o) :
    let s' := { s with answers := Function.update s.answers id (.delivered o) }.settle limit e o
    Steady limit s' ∧ (∀ f ∈ s.inFlight, f.id ≠ id → f ∈ s'.inFlight) ∧
      (s.aborted id = true →
        s'.inFlight = s.inFlight ∧ s'.waiting = s.waiting ∧ s'.settlements = s.settlements) := by
  obtain ⟨hstarted, hid⟩ := h.answered id e (.inr ⟨o, hanswer⟩)
  rw [Queue.settle]
  split
  case isTrue haborted =>
    refine ⟨⟨h.ignore hanswer (hid ▸ haborted), h.slots, h.pumped⟩, fun f hf _ => hf, fun _ => ⟨rfl, rfl, rfl⟩⟩
  case isFalse haborted =>
    have haborted' : s.aborted id = false := by simpa [hid] using haborted
    obtain ⟨hfly, hsound⟩ := h.deliver hanswer haborted'
    obtain ⟨hpumped, hslots, hfull, hpre⟩ := hsound.pump
      ((List.length_filter_le _ _).trans h.slots)
    subst hid
    refine ⟨⟨hpumped, hslots, .inl hfull⟩, fun f hf hne => hpre.mem ?_, fun hsome => ?_⟩
    · exact (h.mem_delete hfly).2 ⟨hf, hne⟩
    · rw [haborted'] at hsome
      cases hsome

/-- Every step keeps the queue steady. -/
theorem Steady.step (h : Steady limit s) (event : Event Key V E) {s' : Queue Key V E}
    (hstep : s.step limit event = some s') : Steady limit s' := by
  cases event with
  | run key throws =>
    obtain rfl := Option.some.inj hstep
    exact h.run key throws
  | cancel key =>
    obtain rfl := Option.some.inj hstep
    exact h.cancel key
  | abortAll =>
    obtain rfl := Option.some.inj hstep
    exact h.abortAll
  | answer id o =>
    simp only [Queue.step] at hstep
    split at hstep
    case h_1 e hanswer =>
      obtain rfl := Option.some.inj hstep
      exact h.answer hanswer o
    case h_2 => cases hstep
  | callback id =>
    simp only [Queue.step] at hstep
    split at hstep
    case h_1 e o hanswer =>
      obtain rfl := Option.some.inj hstep
      exact (h.callback hanswer).1
    case h_2 => cases hstep
  | pump =>
    simp only [Queue.step] at hstep
    split at hstep
    case isTrue => cases hstep
    case isFalse =>
      obtain rfl := Option.some.inj hstep
      have hsound : Sound { s with pumps := s.pumps - 1 } := ⟨h.ids, h.order, h.gone, h.flying, h.keys, h.newest,
        h.waits, h.called, h.answered, h.settled, h.fresh⟩
      obtain ⟨hpumped, hslots, hfull, -⟩ := hsound.pump h.slots
      exact ⟨hpumped, hslots, .inl hfull⟩

end Steps

section Effects

/-- The runs an event aborts, by their keys: that of a key which is run again or cancelled, or all. -/
def Event.aborts : Event Key V E → Key → Prop
  | .run key _, k => k = key
  | .cancel key, k => k = key
  | .abortAll, _ => True
  | _, _ => False

/-- The run whose task's outcome an event passes on. -/
def Event.ends : Event Key V E → Entry Key E → Prop
  | .callback id, e => e.id = id
  | _, _ => False

/-- The run that an event adds to a queue. -/
def Event.adds (s : Queue Key V E) : Event Key V E → Entry Key E → Prop
  | .run key throws, e => e = ⟨s.created.length, key, throws⟩
  | _, _ => False

/-- What an event does to a queue's runs. -/
structure Effect (s : Queue Key V E) (event : Event Key V E) (s' : Queue Key V E) : Prop where
  /-- It aborts the runs that wait or are in flight whose keys it names, and no others. -/
  aborted : ∀ id, s'.aborted id = true ↔
    s.aborted id = true ∨ ∃ e ∈ s.live, e.id = id ∧ event.aborts e.key
  /-- The others wait or are in flight still, but for one whose outcome it passes on, and one is new. -/
  live : ∀ e, e ∈ s'.live ↔ (e ∈ s.live ∧ ¬ event.aborts e.key ∧ ¬ event.ends e) ∨ event.adds s e
  created : ∀ e, e ∈ s'.created ↔ e ∈ s.created ∨ event.adds s e
  /-- A task's outcome stays what it was. -/
  kept : ∀ id o, (s.answers id).outcome = some o → (s'.answers id).outcome = some o
  /-- It is what the task's promise settled with, or what the task threw. -/
  own : ∀ id o, (s'.answers id).outcome = some o → (s.answers id).outcome = some o ∨
    event = .answer id o ∨ ∃ e ∈ s'.live, e.id = id ∧ ∃ error, e.throws = some error ∧ o = .rejected error

variable {limit : ℕ} {s : Queue Key V E}

/-- A task's promise that settles ends no run yet. -/
theorem answer_effect {id : ℕ} {e : Entry Key E} (hanswer : s.answers id = .pending e)
    (o : Outcome V E) :
    Effect s (.answer id o) { s with answers := Function.update s.answers id (.settled e o) } := by
  refine ⟨fun _ => ?_, fun f => ?_, fun f => ?_, fun id' o' hs => ?_, fun id' o' hs => ?_⟩
  · simp [Event.aborts]
  · simp [Event.aborts, Event.ends, Event.adds, Queue.live]
  · simp [Event.adds]
  · have hne : id' ≠ id := by
      intro heq
      rw [heq, hanswer] at hs
      cases hs
    simp only [Function.update_of_ne hne]
    exact hs
  · by_cases hid : id' = id
    · subst hid
      simp only [Function.update_self] at hs
      exact .inr (.inl (by rw [Option.some.inj hs]))
    · simp only [Function.update_of_ne hid] at hs
      exact .inl hs

variable [DecidableEq Key]

/-- A run or a cancel of a key goes on from the queue without the key's run, if there is one. -/
theorem Sound.abortKey_effect (h : Sound s) (key : Key) : ∃ s' : Queue Key V E,
    (∀ limit throws, s.run limit key throws = (s'.push key throws).pump limit) ∧
      (s.cancel key = s' ∨ s.cancel key = { s' with pumps := s.pumps + 1 }) ∧ Sound s' ∧
      (∀ f, f ∈ s'.live ↔ f ∈ s.live ∧ f.key ≠ key) ∧
      (∀ id, s'.aborted id = true ↔ s.aborted id = true ∨ ∃ e ∈ s.live, e.id = id ∧ e.key = key) ∧
      s'.created = s.created ∧ s'.answers = s.answers := by
  obtain ⟨hsome, hnone⟩ := find_spec s key
  cases hfind : s.find key with
  | none =>
    refine ⟨s, fun _ _ => by rw [Queue.run, hfind], .inl (by rw [Queue.cancel, hfind]), h, fun f => ?_,
      fun id => ?_, rfl, rfl⟩
    · exact (and_iff_left_of_imp (hnone hfind f)).symm
    · refine (or_iff_left ?_).symm
      intro hex
      obtain ⟨e, he, -, hkey⟩ := hex
      exact hnone hfind e he hkey
  | some older =>
    obtain ⟨hlive, hkey⟩ := hsome older hfind
    obtain ⟨inFlight, waiting, -, hsound, -⟩ := h.abort hlive
    obtain ⟨hlive', haborted, hcreated, hanswers⟩ := h.abort_effect hlive
    refine ⟨s.abort older, fun _ _ => by rw [Queue.run, hfind], .inr (by rw [Queue.cancel, hfind]), hsound,
      fun f => ?_, fun id => ?_, hcreated, hanswers⟩
    · rw [hlive']
      apply and_congr_right
      intro hf
      rw [← hkey, ne_eq, ne_eq, h.key_iff hlive hf]
    · rw [haborted]
      apply or_congr_right
      constructor
      · exact fun hid => ⟨older, hlive, hid, hkey⟩
      · intro hex
        obtain ⟨e, he, hid, hkey'⟩ := hex
        rw [← hid, (h.key_iff hlive he).1 (hkey'.trans hkey.symm)]

/-- A run aborts the key's live entry, adds its own and starts what there is room for. -/
theorem Steady.run_effect (h : Steady limit s) (key : Key) (throws : Option E) :
    Effect s (.run key throws) (s.run limit key throws) := by
  obtain ⟨s', hrun, -, hsound, hlive, haborted, hcreated, hanswers⟩ := h.abortKey_effect key
  rw [hrun]
  have hpush := hsound.push (fun e he => ((hlive e).1 he).2) throws
  have hcarried := hpush.pump_carried limit
  have hadds : (s'.push key throws).live = s'.live ++ [⟨s.created.length, key, throws⟩] := by
    simp [Queue.live, Queue.push, hcreated]
  have hsame : (s'.push key throws).answers = s.answers := hanswers
  refine ⟨fun id => ?_, fun e => ?_, fun e => ?_, fun id o hs => hcarried.kept id o ?_, fun id o hs => ?_⟩
  · rw [hcarried.aborted]
    exact haborted id
  · rw [hcarried.live, hadds, List.mem_append, List.mem_singleton, hlive]
    simp [Event.aborts, Event.ends, Event.adds]
  · rw [hcarried.created]
    simp [Queue.push, Event.adds, hcreated]
  · rw [hsame]
    exact hs
  · rw [hcarried.live]
    cases hcarried.own id o hs with
    | inl hs => exact .inl (hsame ▸ hs)
    | inr hthrown => exact .inr (.inr hthrown)

/-- A cancel aborts the key's live entry and nothing else. -/
theorem Steady.cancel_effect (h : Steady limit s) (key : Key) : Effect s (.cancel key) (s.cancel key) := by
  obtain ⟨s', -, hcancel, -, hlive, haborted, hcreated, hanswers⟩ := h.abortKey_effect key
  have heffect : Effect s (.cancel key) s' := by
    refine ⟨haborted, fun e => ?_, fun e => ?_, fun id o hs => ?_, fun id o hs => .inl ?_⟩
    · rw [hlive]
      simp [Event.aborts, Event.ends, Event.adds]
    · simp [Event.adds, hcreated]
    · rw [hanswers]
      exact hs
    · rwa [hanswers] at hs
  cases hcancel with
  | inl hcancel => exact hcancel ▸ heffect
  | inr hcancel =>
    rw [hcancel]
    exact ⟨heffect.aborted, heffect.live, heffect.created, heffect.kept, heffect.own⟩

/-- An abort of all aborts every live entry. -/
theorem Steady.abortAll_effect (h : Steady limit s) : Effect s .abortAll s.abortAll := by
  obtain ⟨-, -, hlive, haborted, hcreated, hanswers⟩ :=
    h.abortEach h.slots (fun e (he : e ∈ s.live) => he) h.keys.of_map
  refine ⟨fun id => ?_, fun e => ?_, fun e => ?_, fun id o hs => ?_, fun id o hs => .inl ?_⟩
  · refine (haborted id).trans ?_
    simp [Event.aborts]
  · rw [h.abortAll_live]
    simp [Event.aborts, Event.adds]
  · rw [show s.abortAll.created = s.created from hcreated]
    simp [Event.adds]
  · rw [show s.abortAll.answers = s.answers from hanswers]
    exact hs
  · rwa [show s.abortAll.answers = s.answers from hanswers] at hs

/-- A callback ends its own entry. -/
theorem Steady.callback_effect (h : Steady limit s) {id : ℕ} {e : Entry Key E} {o : Outcome V E}
    (hanswer : s.answers id = .settled e o) : Effect s (.callback id)
      ({ s with answers := Function.update s.answers id (.delivered o) }.settle limit e o) := by
  have hanswers (id' : ℕ) (o' : Outcome V E) :
      (Function.update s.answers id (.delivered o) id').outcome = some o' ↔
        (s.answers id').outcome = some o' := by
    by_cases hid : id' = id
    · subst hid
      simp [hanswer, Answer.outcome]
    · rw [Function.update_of_ne hid]
  obtain ⟨hstarted, hid⟩ := h.answered id e (.inr ⟨o, hanswer⟩)
  rw [Queue.settle]
  split
  case isTrue haborted =>
    refine ⟨fun _ => ?_, fun f => ?_, fun f => ?_, fun id' o' hs => (hanswers id' o').2 hs,
      fun id' o' hs => .inl ((hanswers id' o').1 hs)⟩
    · simp [Event.aborts]
    · -- an aborted run is not one that waits or is in flight
      have hother : f ∈ s.live → f.id ≠ id := by
        intro hf heq
        have hopen := (h.live_open hf).1
        rw [heq, ← hid] at hopen
        exact Bool.noConfusion (haborted.symm.trans hopen)
      simp only [Event.aborts, Event.ends, Event.adds, not_false_eq_true, true_and, or_false]
      exact (and_iff_left_of_imp hother).symm
    · simp [Event.adds]
  case isFalse haborted =>
    have haborted' : s.aborted id = false := by simpa [hid] using haborted
    obtain ⟨hfly, hsound⟩ := h.deliver hanswer haborted'
    subst hid
    have hcarried := hsound.pump_carried limit
    have hlive (f : Entry Key E) :
        f ∈ delete s.inFlight e.key ++ s.waiting ↔ f ∈ s.live ∧ f.id ≠ e.id := by
      have hwaits : f ∈ s.waiting → f.id ≠ e.id := by
        intro hf heq
        exact h.not_started hf (h.eq_of_id (h.waiting_created hf) (h.started_created hstarted) heq ▸ hstarted)
      rw [List.mem_append, h.mem_delete hfly, Queue.live, List.mem_append, or_and_right,
        and_iff_left_of_imp hwaits]
    refine ⟨fun id' => ?_, fun f => ?_, fun f => ?_, fun id' o' hs => ?_, fun id' o' hs => ?_⟩
    · refine (iff_of_eq (congrArg (· id' = true) hcarried.aborted)).trans ?_
      simp [Event.aborts]
    · refine (iff_of_eq (congrArg (f ∈ ·) hcarried.live)).trans ((hlive f).trans ?_)
      simp [Event.aborts, Event.ends, Event.adds]
    · refine (iff_of_eq (congrArg (f ∈ ·) hcarried.created)).trans ?_
      simp [Event.adds]
    · exact hcarried.kept id' o' ((hanswers id' o').2 hs)
    · cases hcarried.own id' o' hs with
      | inl hs => exact .inl ((hanswers id' o').1 hs)
      | inr hthrown => exact .inr (.inr (hcarried.live ▸ hthrown))

/-- Each event does to the queue's runs what its call says. -/
theorem Steady.step_effect (h : Steady limit s) (event : Event Key V E) {s' : Queue Key V E}
    (hstep : s.step limit event = some s') : Effect s event s' := by
  cases event with
  | run key throws =>
    obtain rfl := Option.some.inj hstep
    exact h.run_effect key throws
  | cancel key =>
    obtain rfl := Option.some.inj hstep
    exact h.cancel_effect key
  | abortAll =>
    obtain rfl := Option.some.inj hstep
    exact h.abortAll_effect
  | answer id o =>
    simp only [Queue.step] at hstep
    split at hstep
    case h_1 e hanswer =>
      obtain rfl := Option.some.inj hstep
      exact answer_effect hanswer o
    case h_2 => cases hstep
  | callback id =>
    simp only [Queue.step] at hstep
    split at hstep
    case h_1 e o hanswer =>
      obtain rfl := Option.some.inj hstep
      exact h.callback_effect hanswer
    case h_2 => cases hstep
  | pump =>
    simp only [Queue.step] at hstep
    split at hstep
    case isTrue => cases hstep
    case isFalse =>
      obtain rfl := Option.some.inj hstep
      have hsound : Sound { s with pumps := s.pumps - 1 } := ⟨h.ids, h.order, h.gone, h.flying, h.keys, h.newest,
        h.waits, h.called, h.answered, h.settled, h.fresh⟩
      have hcarried := hsound.pump_carried limit
      refine ⟨fun id => ?_, fun e => ?_, fun e => ?_, hcarried.kept, fun id o hs => ?_⟩
      · rw [hcarried.aborted]
        simp [Event.aborts]
      · rw [hcarried.live]
        simp [Event.aborts, Event.ends, Event.adds, Queue.live]
      · rw [hcarried.created]
        simp [Event.adds]
      · rw [hcarried.live]
        exact (hcarried.own id o hs).imp_right .inr

end Effects

section Promises

/-- What the queue promises. -/
structure Keeps (limit : ℕ) (s : Queue Key V E) : Prop where
  slots : s.inFlight.length ≤ limit
  /-- A key has one run that waits or is in flight at most, its newest. -/
  oneEach : (s.live.map Entry.key).Nodup
  newest : ∀ e ∈ s.live, ∀ f ∈ s.created, f.key = e.key → f.id ≤ e.id
  /-- A run that waits or is in flight hasn't been aborted, nor its task's outcome passed on. -/
  unsettled : ∀ e ∈ s.live, s.settlements e.id = [] ∧ s.aborted e.id = false ∧ ∀ o, s.answers e.id ≠ .delivered o
  /-- Each other run's promise was settled once, by its abort or with its task's outcome. -/
  settled : ∀ e ∈ s.created, e ∉ s.live →
    s.aborted e.id = true ∧ s.settlements e.id = [.abortError] ∨
      s.aborted e.id = false ∧ ∃ o, s.answers e.id = .delivered o ∧ s.settlements e.id = [.outcome o]
  /-- Runs start in the order they were queued in, and none that isn't aborted is passed over. -/
  inOrder : (s.created.map Entry.id).Pairwise (· < ·) ∧ s.started.Sublist s.created ∧
    ∀ e ∈ s.started, ∀ f ∈ s.created, f.id < e.id → f ∈ s.started ∨ s.aborted f.id = true
  /-- The runs started are those whose tasks were called: those in flight are, and none that waits. -/
  called : (∀ e ∈ s.created, e ∈ s.started ↔ s.answers e.id ≠ .none) ∧
    (∀ e ∈ s.inFlight, e ∈ s.started) ∧ ∀ e ∈ s.waiting, e ∉ s.started
  pumped : s.waiting ≠ [] → s.inFlight.length = limit ∨ 0 < s.pumps

variable {limit : ℕ} {s : Queue Key V E}

/-- A steady queue keeps what it promises. -/
theorem Steady.keeps (h : Steady limit s) : Keeps limit s := by
  have hwaitNone : ∀ e ∈ s.waiting, s.answers e.id = .none := by
    intro e he
    by_contra hne
    exact h.not_started he ((h.called e (h.waiting_created he)).2 hne)
  refine ⟨h.slots, h.keys, h.newest, ?_, ?_, ⟨?_, ?_, ?_⟩,
    ⟨h.called, fun e he => ((h.flying e).1 he).1, fun e he => h.not_started he⟩, ?_⟩
  · intro e he
    obtain ⟨haborted, hsettlements⟩ := h.live_open he
    refine ⟨hsettlements, haborted, fun o hanswer => ?_⟩
    rcases List.mem_append.1 he with he | he
    · exact ((h.flying e).1 he).2.2 o hanswer
    · rw [hwaitNone e he] at hanswer
      cases hanswer
  · intro e he hnot
    cases haborted : s.aborted e.id with
    | true => exact .inl ⟨rfl, by simp [h.settled, haborted]⟩
    | false =>
      have hstarted : e ∈ s.started := by
        rcases h.gone e he with hstarted | hwaits | haborted'
        · exact hstarted
        · exact absurd (List.mem_append_right _ hwaits) hnot
        · rw [haborted] at haborted'
          cases haborted'
      have hflying : e ∉ s.inFlight := fun hfly => hnot (List.mem_append_left _ hfly)
      rw [h.flying] at hflying
      have hdelivered : ∃ o, s.answers e.id = .delivered o := by
        by_contra hno
        exact hflying ⟨hstarted, haborted, fun o hanswer => hno ⟨o, hanswer⟩⟩
      obtain ⟨o, hanswer⟩ := hdelivered
      exact .inr ⟨rfl, o, hanswer, by simp [h.settled, haborted, hanswer]⟩
  · rw [h.ids]
    exact List.pairwise_lt_range
  · exact (List.sublist_append_left _ _).trans h.order
  · intro e he f hf hlt
    rcases h.gone f hf with hstarted | hwaits | haborted
    · exact .inl hstarted
    · -- Those waiting are after those started, in the order that both were queued in.
      have hsorted : ((s.started ++ s.waiting).map Entry.id).Pairwise (· < ·) := by
        have hsub := h.order.map Entry.id
        rw [h.ids] at hsub
        exact List.pairwise_lt_range.sublist hsub
      rw [List.map_append, List.pairwise_append] at hsorted
      exact absurd (hsorted.2.2 _ (List.mem_map_of_mem he) _ (List.mem_map_of_mem hwaits)) (lt_asymm hlt)
    · exact .inr haborted
  · intro hwaiting
    rcases h.pumped with (hnone | hfull) | hpumps
    · exact absurd hnone hwaiting
    · exact .inl (le_antisymm h.slots hfull)
    · exact .inr hpumps

variable [DecidableEq Key]

/-- In every state reached by calls, and by tasks settling, the queue keeps its promises. Each event aborts
just the runs in the queue that its call names and leaves the others, and what follows a settled promise
takes no other run from its slot, and nothing when its run was aborted. -/
theorem queue_keeps (h : Transition.Reaches (Queue.step limit) (fun _ _ => True) Queue.init s) :
    Keeps limit s ∧ (∀ event s', s.step limit event = some s' → Effect s event s') ∧
      ∀ id s', s.step limit (.callback id) = some s' →
        (∀ f ∈ s.inFlight, f.id ≠ id → f ∈ s'.inFlight) ∧
          (s.aborted id = true →
            s'.inFlight = s.inFlight ∧ s'.waiting = s.waiting ∧ s'.settlements = s.settlements) := by
  have hsteady := h.invariant steady_init fun s event t hs _ hstep => hs.step event hstep
  refine ⟨hsteady.keeps, fun event s' => hsteady.step_effect event, fun id s' hstep => ?_⟩
  simp only [Queue.step] at hstep
  split at hstep
  case h_1 e o hanswer =>
    obtain rfl := Option.some.inj hstep
    exact (hsteady.callback hanswer).2
  case h_2 => cases hstep

/-- A run is superseded while in flight, and its task settles late. -/
def sampleRun : List (Event Bool ℕ ℕ) :=
  [.run true none, .run false none, .run true none, .answer 0 (.resolved 5), .callback 0, .cancel true, .pump]

/-- Its last state, with one slot: the superseded run and the cancelled one were aborted, and the one in
flight is when all are. -/
theorem queue_keeps_sample :
    ∃ s, Transition.run (Queue.step 1) (fun _ _ => True) Queue.init sampleRun = some s ∧ Keeps 1 s ∧
      s.inFlight.map Entry.id = [1] ∧ s.waiting.map Entry.id = [] ∧
      (s.aborted 0 = true ∧ s.aborted 1 = false ∧ s.aborted 2 = true) ∧
      s.settlements 0 = [.abortError] ∧
      s.abortAll.live = [] ∧ s.abortAll.aborted 1 = true := by
  have hrun : Transition.run (Queue.step 1) (fun _ _ => True) Queue.init sampleRun = some _ := rfl
  have hkeeps := queue_keeps (Transition.reaches_of_run hrun)
  have hall := hkeeps.2.1 .abortAll _ rfl
  refine ⟨_, hrun, hkeeps.1, rfl, rfl, ⟨rfl, rfl, rfl⟩, rfl, ?_, ?_⟩
  · rw [List.eq_nil_iff_forall_not_mem]
    intro e he
    cases (hall.live e).1 he with
    | inl h => exact h.2.1 trivial
    | inr h => exact h
  · exact (hall.aborted 1).2 (.inr ⟨⟨1, false, none⟩, List.mem_singleton_self _, rfl, trivial⟩)

end Promises

end SolidTrace.Dashboards
