import Mathlib.Algebra.BigOperators.Group.Finset.Basic
import Mathlib.Data.Finset.Interval
import Mathlib.Order.Interval.Finset.Nat
import Mathlib.Data.Int.Interval
import SolidTrace.SpanProcessing.Spans

/-!
# Self times

A Span's self time is its duration less the length of the union of its children's times within its
own. The sweep over the children's intervals, clipped and sorted by their starts, counts each
nanosecond of the union once.
-/

namespace SolidTrace.SpanProcessing

section Sweep

/-- The nanoseconds from `start` on and before `stop`. -/
def nanoseconds (start stop : ℤ) : Finset ℤ := Int.instLocallyFiniteOrder.finsetIco start stop

/-- An instant is among those from a start to a stop when it lies between. -/
@[simp]
theorem mem_nanoseconds {start stop t : ℤ} : t ∈ nanoseconds start stop ↔ start ≤ t ∧ t < stop :=
  Int.instLocallyFiniteOrder.finset_mem_Ico start stop t

/-- There are as many instants as the stop is after the start, or none. -/
theorem card_nanoseconds (start stop : ℤ) : (nanoseconds start stop).card = (stop - start).toNat :=
  Int.card_Ico start stop

/-- The nanoseconds of some of the intervals. -/
def pointsOf (intervals : List (ℤ × ℤ)) : Finset ℤ :=
  intervals.toFinset.biUnion fun iv => nanoseconds iv.1 iv.2

/-- An instant is in some intervals when it lies in one of them. -/
theorem mem_pointsOf {intervals : List (ℤ × ℤ)} {t : ℤ} :
    t ∈ pointsOf intervals ↔ ∃ iv ∈ intervals, iv.1 ≤ t ∧ t < iv.2 := by
  simp [pointsOf]

/-- A sweep over intervals sorted by their starts counts the nanoseconds of their union from where it
has reached. -/
theorem coveredFrom_eq_card {intervals : List (ℤ × ℤ)} (hsorted : intervals.Pairwise (·.1 ≤ ·.1))
    (reached : ℤ) :
    coveredFrom reached intervals = ((pointsOf intervals).filter (reached ≤ ·)).card := by
  induction intervals generalizing reached with
  | nil => rfl
  | cons iv rest ih =>
    obtain ⟨start, stop⟩ := iv
    obtain ⟨hfirst, hrest⟩ := List.pairwise_cons.1 hsorted
    have hstarts : ∀ t, t ∈ pointsOf rest → start ≤ t := by
      intro t ht
      obtain ⟨iv, hiv, hle, -⟩ := mem_pointsOf.1 ht
      exact (hfirst iv hiv).trans hle
    rw [coveredFrom]
    split
    next hlt =>
      have hsplit : (pointsOf ((start, stop) :: rest)).filter (reached ≤ ·) =
          nanoseconds (max start reached) stop ∪ (pointsOf rest).filter (stop ≤ ·) := by
        ext t
        have hstart := hstarts t
        simp only [Finset.mem_filter, Finset.mem_union, mem_nanoseconds, mem_pointsOf, List.exists_mem_cons_iff]
        rw [← mem_pointsOf]
        constructor
        · rintro ⟨⟨hle, hlt⟩ | ht, hreached⟩
          · exact .inl ⟨max_le hle hreached, hlt⟩
          · rcases lt_or_ge t stop with hlt | hge
            · exact .inl ⟨max_le (hstart ht) hreached, hlt⟩
            · exact .inr ⟨ht, hge⟩
        · rintro (⟨hle, hlt⟩ | ⟨ht, hge⟩)
          · exact ⟨.inl ⟨(le_max_left _ _).trans hle, hlt⟩, (le_max_right _ _).trans hle⟩
          · exact ⟨.inr ht, ((le_max_right _ _).trans hlt.le).trans hge⟩
      have hdisjoint : Disjoint (nanoseconds (max start reached) stop) ((pointsOf rest).filter (stop ≤ ·)) := by
        rw [Finset.disjoint_left]
        intro t ht ht'
        exact absurd (Finset.mem_filter.1 ht').2 (not_le.2 (mem_nanoseconds.1 ht).2)
      rw [hsplit, Finset.card_union_of_disjoint hdisjoint, ih hrest, card_nanoseconds, Nat.cast_add,
        Int.toNat_of_nonneg (by omega)]
    next hge =>
      have hsame : (pointsOf ((start, stop) :: rest)).filter (reached ≤ ·) =
          (pointsOf rest).filter (reached ≤ ·) := by
        ext t
        simp only [Finset.mem_filter, mem_pointsOf, List.exists_mem_cons_iff]
        constructor
        · rintro ⟨⟨hle, hlt⟩ | ht, hreached⟩
          · exact absurd (lt_of_le_of_lt (max_le hle hreached) hlt) hge
          · exact ⟨ht, hreached⟩
        · rintro ⟨ht, hreached⟩
          exact ⟨.inr ht, hreached⟩
      rw [hsame, ih hrest]

/-- The nanoseconds during a Span. -/
def Span.during (s : Span) : Finset ℤ := nanoseconds (s.start * 1000) s.finish

/-- A Span lasts as many instants as its duration. -/
theorem Span.card_during {s : Span} (h : 0 ≤ s.duration) : (s.during.card : ℤ) = s.duration := by
  rw [Span.during, card_nanoseconds, Span.finish]
  omega

/-- The nanoseconds during some of the Spans. -/
def duringAny (spans : List Span) : Finset ℤ := spans.toFinset.biUnion Span.during

/-- What a Span's children cover of it is the length of the union of their times within its own. -/
theorem covered_eq_card {parent : Span} (h : zeroTime ≤ parent.start * 1000) (children : List Span) :
    covered parent children = ((duringAny children ∩ parent.during).card : ℤ) := by
  unfold covered
  simp only
  set clipped := children.filterMap fun c =>
    if max (c.start * 1000) (parent.start * 1000) < min c.finish parent.finish then
      some (max (c.start * 1000) (parent.start * 1000), min c.finish parent.finish) else none with hclipped
  have hsorted : (clipped.mergeSort fun a b => decide (a.1 ≤ b.1)).Pairwise (·.1 ≤ ·.1) := by
    -- Any order by the starts will do: the sweep's total is that of the union.
    simpa only [decide_eq_true_eq] using @List.pairwise_mergeSort (ℤ × ℤ) (fun a b => decide (a.1 ≤ b.1))
      (fun a b c hab hbc => by simpa using (of_decide_eq_true hab).trans (of_decide_eq_true hbc))
      (fun a b => by simpa using le_total a.1 b.1) clipped
  rw [coveredFrom_eq_card hsorted]
  congr 2
  ext t
  rw [Finset.mem_filter, Finset.mem_inter, mem_pointsOf]
  simp only [(List.mergeSort_perm _ _).mem_iff]
  constructor
  · rintro ⟨⟨iv, hiv, hle, hlt⟩, -⟩
    obtain ⟨c, hc, hsome⟩ := List.mem_filterMap.1 hiv
    split at hsome
    · obtain rfl := Option.some.inj hsome
      obtain ⟨hle₁, hle₂⟩ := max_le_iff.1 hle
      obtain ⟨hlt₁, hlt₂⟩ := lt_min_iff.1 hlt
      exact ⟨Finset.mem_biUnion.2 ⟨c, List.mem_toFinset.2 hc, mem_nanoseconds.2 ⟨hle₁, hlt₁⟩⟩,
        mem_nanoseconds.2 ⟨hle₂, hlt₂⟩⟩
    · cases hsome
  · rintro ⟨hany, hparent⟩
    obtain ⟨c, hc, ht⟩ := Finset.mem_biUnion.1 hany
    obtain ⟨hle₁, hlt₁⟩ := mem_nanoseconds.1 ht
    obtain ⟨hle₂, hlt₂⟩ := mem_nanoseconds.1 hparent
    have hle := max_le hle₁ hle₂
    have hlt := lt_min hlt₁ hlt₂
    refine ⟨⟨_, List.mem_filterMap.2 ⟨c, List.mem_toFinset.1 hc, if_pos (hle.trans_lt hlt)⟩, hle, hlt⟩, ?_⟩
    exact h.trans hle₂

end Sweep

section Children

/-- Whether a Span is a child of another: of its parent, or of the segment when its parent is itself or
not in the Transaction. -/
def isChildOf (spans : List Span) (s c : Span) : Bool :=
  !c.isSegment &&
    if c.parentSpanID ≠ c.spanID ∧ ∃ t ∈ spans, t.spanID = c.parentSpanID then
      s.spanID = c.parentSpanID
    else s.isSegment

/-- Rows of distinct ids, of which the first alone is the segment. -/
structure WellFormed (spans : List Span) : Prop where
  ids : (spans.map Span.spanID).Nodup
  segment : ∃ n, spans.map Span.isSegment = true :: List.replicate n false
  starts : ∀ s ∈ spans, 0 ≤ s.start
  durations : ∀ s ∈ spans, 0 ≤ s.duration

variable {spans : List Span}

/-- The segment is the first Span, and no other. -/
theorem WellFormed.isSegment_iff (h : WellFormed spans) {i : ℕ} {s : Span} (hs : spans[i]? = some s) :
    s.isSegment = true ↔ i = 0 := by
  obtain ⟨n, hn⟩ := h.segment
  have hi : (spans.map Span.isSegment)[i]? = some s.isSegment := by rw [List.getElem?_map, hs]; rfl
  rw [hn] at hi
  cases i with
  | zero => simpa using hi.symm
  | succ i =>
    rw [List.getElem?_cons_succ, List.getElem?_replicate] at hi
    split at hi
    · simpa using (Option.some.inj hi).symm
    · cases hi

/-- A Span's id is its own. -/
theorem WellFormed.eq_of_spanID (h : WellFormed spans) {i j : ℕ} {s t : Span} (hs : spans[i]? = some s)
    (ht : spans[j]? = some t) (hid : s.spanID = t.spanID) : i = j := by
  have hi : (spans.map Span.spanID)[i]? = some s.spanID := by rw [List.getElem?_map, hs]; rfl
  have hj : (spans.map Span.spanID)[j]? = some s.spanID := by rw [List.getElem?_map, ht, hid]; rfl
  exact (List.getElem?_inj (List.getElem?_eq_some_iff.1 hi).1 h.ids).1 (hi.trans hj.symm)

/-- The last place of an id holds a Span with it. -/
theorem lastIndex_eq_some {spanID : String} {i : ℕ} (h : lastIndex spans spanID = some i) :
    ∃ s, spans[i]? = some s ∧ s.spanID = spanID := by
  have hmem := List.mem_of_getLast? h
  rw [List.mem_filter, decide_eq_true_eq, Option.map_eq_some_iff] at hmem
  exact hmem.2

/-- An id that stands among the Spans has a last place. -/
theorem exists_lastIndex {spanID : String} (h : ∃ t ∈ spans, t.spanID = spanID) :
    ∃ i, lastIndex spans spanID = some i := by
  obtain ⟨t, ht, hid⟩ := h
  obtain ⟨j, hj⟩ := List.mem_iff_getElem?.1 ht
  have hmem : j ∈ (List.range spans.length).filter fun i => (spans[i]?.map Span.spanID) = some spanID := by
    refine List.mem_filter.2 ⟨List.mem_range.2 (List.getElem?_eq_some_iff.1 hj).1, ?_⟩
    rw [hj, Option.map_some, hid, decide_eq_true_eq]
  exact ⟨_, List.getLast?_eq_some_getLast (List.ne_nil_of_mem hmem)⟩

/-- The index of a Span's parent is that of the Span it is a child of. -/
theorem WellFormed.parentIndex_eq_iff (h : WellFormed spans) {i j : ℕ} {c s : Span}
    (hc : spans[i]? = some c) (hs : spans[j]? = some s) (hchild : c.isSegment = false) :
    parentIndex spans i c = j ↔ isChildOf spans s c = true := by
  unfold parentIndex isChildOf
  rw [hchild, Bool.not_false, Bool.true_and]
  by_cases hin : ∃ t ∈ spans, t.spanID = c.parentSpanID
  · obtain ⟨k, hk⟩ := exists_lastIndex hin
    obtain ⟨t, ht, hid⟩ := lastIndex_eq_some hk
    rw [hk]
    simp only
    by_cases hself : c.parentSpanID = c.spanID
    · have hki : k = i := h.eq_of_spanID ht hc (hid.trans hself)
      rw [if_pos hki, if_neg (fun hboth => hboth.1 hself), h.isSegment_iff hs, eq_comm]
    · have hki : k ≠ i := by
        rintro rfl
        obtain rfl := Option.some.inj (ht.symm.trans hc)
        exact hself hid.symm
      rw [if_neg hki, if_pos ⟨hself, hin⟩, decide_eq_true_eq, ← hid]
      constructor
      · rintro rfl
        rw [Option.some.inj (hs.symm.trans ht)]
      · intro hsame
        exact (h.eq_of_spanID hs ht hsame).symm
  · have hnone : lastIndex spans c.parentSpanID = none := by
      cases hlast : lastIndex spans c.parentSpanID with
      | none => rfl
      | some k =>
        obtain ⟨t, ht, hid⟩ := lastIndex_eq_some hlast
        exact absurd ⟨t, List.mem_of_getElem? ht, hid⟩ hin
    rw [hnone, if_neg (fun hboth => hin hboth.2), h.isSegment_iff hs, eq_comm]

/-- Each Span other than the segment is a child of one Span of its Transaction. -/
theorem WellFormed.existsUnique_parent (h : WellFormed spans) {c : Span} (hc : c ∈ spans)
    (hchild : c.isSegment = false) : ∃! s, s ∈ spans ∧ isChildOf spans s c = true := by
  obtain ⟨i, hi⟩ := List.mem_iff_getElem?.1 hc
  have hlt : parentIndex spans i c < spans.length := by
    have hpos := (List.getElem?_eq_some_iff.1 hi).1
    unfold parentIndex
    split
    next k hk =>
      obtain ⟨t, ht, -⟩ := lastIndex_eq_some hk
      have hk' := (List.getElem?_eq_some_iff.1 ht).1
      split <;> omega
    · omega
  have hs := List.getElem?_eq_getElem hlt
  refine ⟨_, ⟨List.getElem_mem hlt, (h.parentIndex_eq_iff hi hs hchild).1 rfl⟩, ?_⟩
  rintro s ⟨hmem, hof⟩
  obtain ⟨j, hj⟩ := List.mem_iff_getElem?.1 hmem
  obtain rfl := (h.parentIndex_eq_iff hi hj hchild).2 hof
  exact Option.some.inj (hj.symm.trans hs)

/-- A Span's children are the Spans that name it their parent. -/
theorem WellFormed.childrenOf_eq (h : WellFormed spans) {i : ℕ} {s : Span} (hs : spans[i]? = some s) :
    childrenOf spans i = spans.filter (isChildOf spans s) := by
  have hfilter : (spans.zipIdx.filter fun e => !e.1.isSegment && parentIndex spans e.2 e.1 = i) =
      spans.zipIdx.filter (isChildOf spans s ∘ Prod.fst) := by
    refine List.filter_congr fun e he => ?_
    have hc : spans[e.2]? = some e.1 := List.mem_zipIdx_iff_getElem?.1 he
    rw [Function.comp_apply]
    cases hsegment : e.1.isSegment with
    | true => simp [isChildOf, hsegment]
    | false =>
      rw [Bool.not_false, Bool.true_and]
      exact Bool.eq_iff_iff.2 (decide_eq_true_iff.trans (h.parentIndex_eq_iff hc hs hsegment))
  rw [childrenOf, hfilter, ← List.filter_map, List.zipIdx_map_fst]

/-- A Span's row with its self time. -/
def withSelfTime (spans : List Span) (s : Span) : Span :=
  { s with
    selfTime := s.duration -
      ((duringAny (spans.filter (isChildOf spans s)) ∩ s.during).card : ℤ) }

/-- Every Span's self time is set from the Spans around it. -/
theorem WellFormed.setSelfTimes_eq (h : WellFormed spans) :
    setSelfTimes spans = spans.map (withSelfTime spans) := by
  have hmap : spans.zipIdx.map (withSelfTime spans ∘ Prod.fst) = spans.map (withSelfTime spans) := by
    rw [← List.map_map, List.zipIdx_map_fst]
  rw [← hmap, setSelfTimes]
  refine List.map_congr_left fun e he => ?_
  have hs : spans[e.2]? = some e.1 := List.mem_zipIdx_iff_getElem?.1 he
  have hstart := h.starts e.1 (List.mem_of_getElem? hs)
  rw [Function.comp_apply, withSelfTime, h.childrenOf_eq hs,
    covered_eq_card (by rw [zeroTime]; omega)]

end Children

section Rewritten

variable {spans : List Span} {rewrite : Span → Span}

/-- What a Span's self time depends on. -/
structure SameTimes (s t : Span) : Prop where
  spanID : t.spanID = s.spanID
  parentSpanID : t.parentSpanID = s.parentSpanID
  isSegment : t.isSegment = s.isSegment
  start : t.start = s.start
  duration : t.duration = s.duration

/-- A Span with the same times lasts the same instants. -/
theorem SameTimes.during {s t : Span} (h : SameTimes s t) : t.during = s.during := by
  rw [Span.during, Span.during, Span.finish, Span.finish, h.start, h.duration]

/-- Who is whose child does not depend on what a rewrite leaves. -/
theorem isChildOf_map (h : ∀ s, SameTimes s (rewrite s)) (s c : Span) :
    isChildOf (spans.map rewrite) (rewrite s) (rewrite c) = isChildOf spans s c := by
  unfold isChildOf
  simp only [List.mem_map, exists_exists_and_eq_and, (h _).spanID, (h _).parentSpanID, (h _).isSegment]

/-- The instants of all Spans do not depend on what a rewrite leaves. -/
theorem duringAny_map (h : ∀ s, SameTimes s (rewrite s)) : duringAny (spans.map rewrite) = duringAny spans := by
  ext t
  simp only [duringAny, Finset.mem_biUnion, List.mem_toFinset, List.mem_map]
  constructor
  · rintro ⟨-, ⟨s, hs, rfl⟩, ht⟩
    exact ⟨s, hs, (h s).during ▸ ht⟩
  · rintro ⟨s, hs, ht⟩
    exact ⟨_, ⟨s, hs, rfl⟩, (h s).during ▸ ht⟩

/-- A Span's children after a rewrite are its children rewritten. -/
theorem filter_isChildOf_map (h : ∀ s, SameTimes s (rewrite s)) (s : Span) :
    (spans.map rewrite).filter (isChildOf (spans.map rewrite) (rewrite s)) =
      (spans.filter (isChildOf spans s)).map rewrite := by
  rw [List.filter_map]
  exact congrArg _ (List.filter_congr fun c _ => isChildOf_map h s c)

/-- A rewrite that leaves the ids leaves the Spans well formed. -/
theorem WellFormed.map (h : ∀ s, SameTimes s (rewrite s)) (hspans : WellFormed spans) :
    WellFormed (spans.map rewrite) where
  ids := by
    have hsame : (spans.map rewrite).map Span.spanID = spans.map Span.spanID := by
      rw [List.map_map]
      exact List.map_congr_left fun s _ => (h s).spanID
    rw [hsame]
    exact hspans.ids
  segment := by
    obtain ⟨n, hn⟩ := hspans.segment
    exact ⟨n, by rw [List.map_map, ← hn]; exact List.map_congr_left fun s _ => (h s).isSegment⟩
  starts := List.forall_mem_map.2 fun s hs => (h s).start ▸ hspans.starts s hs
  durations := List.forall_mem_map.2 fun s hs => (h s).duration ▸ hspans.durations s hs

/-- Setting self times leaves the Spans' own times. -/
theorem sameTimes_withSelfTime (spans : List Span) (s : Span) : SameTimes s (withSelfTime spans s) :=
  ⟨rfl, rfl, rfl, rfl, rfl⟩

end Rewritten

section Reordered

variable {spans others : List Span}

/-- Who is whose child does not depend on the order of the Spans. -/
theorem isChildOf_perm (h : spans.Perm others) (s c : Span) : isChildOf spans s c = isChildOf others s c := by
  unfold isChildOf
  simp only [h.mem_iff]

/-- The instants of all Spans do not depend on their order. -/
theorem duringAny_perm (h : spans.Perm others) : duringAny spans = duringAny others := by
  rw [duringAny, duringAny, List.toFinset_eq_of_perm _ _ h]

/-- A self time does not depend on the order of the Spans. -/
theorem withSelfTime_perm (h : spans.Perm others) (s : Span) : withSelfTime spans s = withSelfTime others s := by
  have hchildren : (spans.filter (isChildOf spans s)).Perm (others.filter (isChildOf others s)) := by
    rw [List.filter_congr fun c _ => isChildOf_perm h s c]
    exact h.filter _
  rw [withSelfTime, withSelfTime, duringAny_perm hchildren]

/-- The self times are the same in another order of the Spans. -/
theorem WellFormed.perm_setSelfTimes (h : spans.Perm others) (hspans : WellFormed spans)
    (hothers : WellFormed others) : (setSelfTimes spans).Perm (setSelfTimes others) := by
  rw [hspans.setSelfTimes_eq, hothers.setSelfTimes_eq, funext (withSelfTime_perm h)]
  exact h.map _

/-- The repeats are the same in another order of the Spans. -/
theorem setRepeats_perm (h : spans.Perm others) : (setRepeats spans).Perm (setRepeats others) := by
  have hcount : groupCount spans = groupCount others := by
    funext group
    rw [groupCount, groupCount, (h.filter _).length_eq]
  rw [setRepeats, setRepeats, hcount]
  exact h.map _

end Reordered

section Rows

variable {lib : Library} {transaction : Transaction} {p : TransactionPayload} {segment : Span}
  {rest : List Span}

/-- A Span's row, in its segment's trace. -/
def spanRowIn (lib : Library) (segment : Span) (s : SpanPayload) : Except String Span := do
  let span ← spanRow lib s
  return { span with traceID := segment.traceID }

/-- A Transaction's rows before their self times. -/
def rowsOf (lib : Library) (transaction : Transaction) (p : TransactionPayload) (segment : Span)
    (rest : List Span) : List Span :=
  setRepeats ((segment :: rest).map (inTransaction lib transaction p segment))

/-- A transaction's Spans are its segment and the Spans of its payload, finished. -/
theorem spansOf_eq_ok_iff {spans : List Span} : spansOf lib transaction = .ok spans ↔
    ∃ p segment rest, lib.unmarshalTransaction transaction.payload = .ok p ∧
      ¬(p.trace.traceID = "" ∨ p.trace.spanID = "") ∧ segmentRow lib p = .ok segment ∧
      List.Forall₂ (fun s row => spanRowIn lib segment s = .ok row) p.spans rest ∧
      spans = setSelfTimes (rowsOf lib transaction p segment rest) := by
  have hmapError : ∀ p, (lib.unmarshalTransaction transaction.payload).mapError unreadable = .ok p ↔
      lib.unmarshalTransaction transaction.payload = .ok p := fun p => by
    cases lib.unmarshalTransaction transaction.payload <;> simp [Except.mapError]
  rw [spansOf, bind_eq_ok_iff]
  simp only [hmapError]
  constructor
  · rintro ⟨p, hp, h⟩
    split at h
    · cases h
    next htrace =>
      obtain ⟨segment, hsegment, h⟩ := bind_eq_ok_iff.1 h
      obtain ⟨rest, hrest, h⟩ := bind_eq_ok_iff.1 h
      exact ⟨p, segment, rest, hp, htrace, hsegment, mapM_eq_ok_iff.1 hrest, (Except.ok.inj h).symm⟩
  · rintro ⟨p, segment, rest, hp, htrace, hsegment, hrest, rfl⟩
    refine ⟨p, hp, ?_⟩
    rw [if_neg htrace, bind_eq_ok_iff]
    exact ⟨segment, hsegment, bind_eq_ok_iff.2 ⟨rest, mapM_eq_ok_iff.2 hrest, rfl⟩⟩

/-- A row's times can be stored. -/
theorem times_of_spanRow {s : SpanPayload} {row : Span} (h : spanRow lib s = .ok row) :
    0 ≤ row.start ∧ 0 ≤ row.duration := by
  rw [spanRow] at h
  obtain ⟨start, -, h⟩ := bind_eq_ok_iff.1 h
  obtain ⟨finish, -, h⟩ := bind_eq_ok_iff.1 h
  split at h
  · cases h
  next hstart =>
    obtain rfl := Except.ok.inj h
    rw [not_or, firstStorableTime, not_lt] at hstart
    exact ⟨hstart.1, le_max_right _ _⟩

/-- The segment starts from 0 on and lasts 0 or more. -/
theorem times_of_segmentRow (h : segmentRow lib p = .ok segment) : 0 ≤ segment.start ∧ 0 ≤ segment.duration := by
  obtain ⟨row, hrow, h⟩ := bind_eq_ok_iff.1 h
  obtain rfl := Except.ok.inj h
  have htimes := times_of_spanRow hrow
  exact htimes

/-- A Span's row starts from 0 on and lasts 0 or more. -/
theorem times_of_spanRowIn {s : SpanPayload} {row : Span} (h : spanRowIn lib segment s = .ok row) :
    0 ≤ row.start ∧ 0 ≤ row.duration := by
  obtain ⟨span, hspan, h⟩ := bind_eq_ok_iff.1 h
  obtain rfl := Except.ok.inj h
  have htimes := times_of_spanRow hspan
  exact htimes

/-- All rows start from 0 on and last 0 or more. -/
theorem times_of_rowsOf (hsegment : segmentRow lib p = .ok segment)
    (hrest : List.Forall₂ (fun s row => spanRowIn lib segment s = .ok row) p.spans rest) :
    ∀ s ∈ rowsOf lib transaction p segment rest, 0 ≤ s.start ∧ 0 ≤ s.duration := by
  intro s hs
  rw [rowsOf, setRepeats, List.map_map] at hs
  obtain ⟨row, hrow, rfl⟩ := List.mem_map.1 hs
  change 0 ≤ row.start ∧ 0 ≤ row.duration
  rcases List.mem_cons.1 hrow with rfl | hrow
  · exact times_of_segmentRow hsegment
  · obtain ⟨s, -, hs⟩ := exists_of_mem_forall₂ hrest hrow
    exact times_of_spanRowIn hs

/-- Setting self times leaves the ids. -/
theorem spanID_setSelfTimes (spans : List Span) :
    (setSelfTimes spans).map Span.spanID = spans.map Span.spanID := by
  have hfst : (spans.zipIdx.map Prod.fst).map Span.spanID = spans.map Span.spanID :=
    congrArg (List.map Span.spanID) (List.zipIdx_map_fst 0 spans)
  rw [setSelfTimes, List.map_map, ← hfst, List.map_map]
  rfl

/-- Reordered Spans of a Transaction give reordered rows. -/
theorem rowsOf_perm {others : List Span} (h : rest.Perm others) :
    (rowsOf lib transaction p segment rest).Perm (rowsOf lib transaction p segment others) :=
  setRepeats_perm ((h.cons segment).map _)

/-- The rows of a readable Transaction of distinct ids, before their self times, are well formed. -/
theorem wellFormed_rowsOf (hp : lib.unmarshalTransaction transaction.payload = .ok p)
    (htrace : ¬(p.trace.traceID = "" ∨ p.trace.spanID = "")) (hsegment : segmentRow lib p = .ok segment)
    (hrest : List.Forall₂ (fun s row => spanRowIn lib segment s = .ok row) p.spans rest)
    (hids : ((rowsOf lib transaction p segment rest).map Span.spanID).Nodup) :
    WellFormed (rowsOf lib transaction p segment rest) where
  ids := hids
  segment := by
    have hspans := spansOf_eq_ok_iff.2 ⟨p, segment, rest, hp, htrace, hsegment, hrest, rfl⟩
    rw [← isSegment_setSelfTimes]
    exact isSegment_spansOf hspans
  starts s hs := (times_of_rowsOf hsegment hrest s hs).1
  durations s hs := (times_of_rowsOf hsegment hrest s hs).2

end Rows

/-- The self times of a Transaction's rows are exact. -/
structure SelfTimesExact (lib : Library) (transaction : Transaction) (spans : List Span) : Prop where
  /-- Each is the duration less the length of the union of the children's times within the Span's. -/
  exact : ∀ s ∈ spans, s.selfTime =
    s.duration - ((duringAny (spans.filter (isChildOf spans s)) ∩ s.during).card : ℤ)
  bounds : ∀ s ∈ spans, 0 ≤ s.selfTime ∧ s.selfTime ≤ s.duration
  parent : ∀ c ∈ spans, c.isSegment = false → ∃! s, s ∈ spans ∧ isChildOf spans s c = true
  /-- The order in which the Spans after the segment are sent changes no row. -/
  reordered : ∀ p sent reordered, lib.unmarshalTransaction transaction.payload = .ok p → p.spans.Perm sent →
    lib.unmarshalTransaction reordered.payload = .ok { p with spans := sent } →
    reordered.sampleRate = transaction.sampleRate →
    ∃ rows, spansOf lib reordered = .ok rows ∧ rows.Perm spans

/-- The self times of a readable Transaction whose Spans have distinct ids are exact. -/
theorem spansOf_selfTimesExact {lib : Library} {transaction : Transaction} {spans : List Span}
    (h : spansOf lib transaction = .ok spans) (hids : (spans.map Span.spanID).Nodup) :
    SelfTimesExact lib transaction spans := by
  obtain ⟨p, segment, rest, hp, htrace, hsegment, hrest, rfl⟩ := spansOf_eq_ok_iff.1 h
  rw [spanID_setSelfTimes] at hids
  have hrows := @wellFormed_rowsOf lib transaction p segment rest hp htrace hsegment hrest hids
  set rows := rowsOf lib transaction p segment rest
  have hsame := sameTimes_withSelfTime rows
  rw [hrows.setSelfTimes_eq]
  have hwell := hrows.map hsame
  have hexact : ∀ s ∈ rows.map (withSelfTime rows), s.selfTime = s.duration -
      ((duringAny ((rows.map (withSelfTime rows)).filter (isChildOf (rows.map (withSelfTime rows)) s)) ∩
        s.during).card : ℤ) := by
    refine List.forall_mem_map.2 fun s _ => ?_
    rw [filter_isChildOf_map hsame, duringAny_map hsame, (hsame s).during, (hsame s).duration]
    rfl
  refine ⟨hexact, fun s hs => ?_, fun c hc => hwell.existsUnique_parent hc, ?_⟩
  · have hle := Finset.card_le_card
      (@Finset.inter_subset_right _ _ (duringAny ((rows.map (withSelfTime rows)).filter
        (isChildOf (rows.map (withSelfTime rows)) s))) s.during)
    have hduring := Span.card_during (hwell.durations s hs)
    rw [hexact s hs]
    omega
  · rintro p' sent reordered hp' hperm hsent hrate
    obtain rfl := Except.ok.inj (hp'.symm.trans hp)
    obtain ⟨others, hothers, hothersPerm⟩ := List.perm_comp_forall₂ hperm.symm hrest
    have hsameRows : rowsOf lib reordered { p' with spans := sent } segment others =
        rowsOf lib transaction p' segment others := by
      have hrow : inTransaction lib reordered { p' with spans := sent } segment =
          inTransaction lib transaction p' segment := by
        funext s
        rw [inTransaction, inTransaction, hrate]
        rfl
      rw [rowsOf, rowsOf, hrow]
    have hrowsPerm : (rowsOf lib transaction p' segment others).Perm rows := rowsOf_perm hothersPerm
    have hothersRows : WellFormed (rowsOf lib transaction p' segment others) := by
      rw [← hsameRows]
      refine wellFormed_rowsOf hsent htrace hsegment hothers ?_
      rw [hsameRows]
      exact (hrowsPerm.map _).nodup_iff.2 hids
    refine ⟨_, spansOf_eq_ok_iff.2 ⟨_, segment, others, hsent, htrace, hsegment, hothers, rfl⟩, ?_⟩
    rw [hsameRows, ← hrows.setSelfTimes_eq]
    exact hothersRows.perm_setSelfTimes hrowsPerm hrows

/-- A Span sent with its times in whole seconds. -/
def sentSpan (spanID parentSpanID : String) (start finish : UInt8) : SpanPayload :=
  ⟨"a", spanID, parentSpanID, "", "", "", [48 + start], [48 + finish], [], []⟩

/-- A Transaction of children that overlap, one with itself as parent and one that outlives its parent,
as it was sent. -/
def overlapping : Transaction where
  sampleRate := 1
  payload := ("\x7b\"start_timestamp\":1,\"timestamp\":9," ++
    "\"contexts\":\x7b\"trace\":\x7b\"trace_id\":\"a\",\"span_id\":\"s\"\x7d\x7d,\"spans\":[" ++
    "\x7b\"trace_id\":\"a\",\"span_id\":\"e\",\"parent_span_id\":\"b\",\"start_timestamp\":3,\"timestamp\":9\x7d," ++
    "\x7b\"trace_id\":\"a\",\"span_id\":\"b\",\"parent_span_id\":\"s\",\"start_timestamp\":2,\"timestamp\":5\x7d," ++
    "\x7b\"trace_id\":\"a\",\"span_id\":\"c\",\"parent_span_id\":\"c\",\"start_timestamp\":4,\"timestamp\":7\x7d]" ++
    "\x7d").toUTF8.toList

/-- What the standard library does on it. -/
def secondsLibrary : Library where
  unmarshalTransaction _ := .ok {
    transaction := ""
    source := ""
    startTimestamp := [49]
    timestamp := [57]
    environment := ""
    release := ""
    serverName := ""
    tags := []
    trace := ⟨"a", "s", "", "", "", "", [], [], [], []⟩
    spans := [sentSpan "e" "b" 3 9, sentSpan "b" "s" 2 5, sentSpan "c" "c" 4 7] }
  unmarshalString _ := .error "unexpected end of JSON input"
  unmarshalMap _ := .error "unexpected end of JSON input"
  parseRFC3339Nano _ := .error "cannot parse"
  parseSeconds raw := match raw with
    | [b] => if 48 ≤ b ∧ b ≤ 57 then .ok ((b.toNat - 48) * 1000000) else .error "invalid syntax"
    | _ => .error "invalid syntax"
  formatTime _ := ""
  toLower s := s
  trimSpace _ := ""
  normalised description := description

/-- Two overlapping Spans and one outside them have exact self times. -/
theorem overlapping_selfTimesExact : ∃ spans, spansOf secondsLibrary overlapping = .ok spans ∧
    spans.map Span.spanID = ["s", "e", "b", "c"] ∧ SelfTimesExact secondsLibrary overlapping spans := by
  obtain ⟨spans, hspans⟩ : ∃ spans, spansOf secondsLibrary overlapping = .ok spans := ⟨_, rfl⟩
  have hids : (spansOf secondsLibrary overlapping).map (List.map Span.spanID) = .ok ["s", "e", "b", "c"] := by
    decide +kernel
  rw [hspans] at hids
  have hids := Except.ok.inj hids
  exact ⟨spans, hspans, hids, spansOf_selfTimesExact hspans (hids ▸ by decide)⟩

end SolidTrace.SpanProcessing
