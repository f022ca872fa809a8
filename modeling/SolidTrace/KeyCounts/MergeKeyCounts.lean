import Mathlib.Data.Finset.Max
import Mathlib.Data.Finset.Sort
import Mathlib.Data.List.Lex
import Mathlib.Data.Prod.Lex
import SolidTrace.Lib.SpaceSaving
import SolidTrace.LogQuery.Expr
import SolidTrace.Normalise.Normalise

/-!
# The keys of a day's Logs

`logKeys` gives the Attribute keys a Log is counted under, and `mergeKeyCounts` adds a batch's counts
to a day's counts and keeps the most popular keys.
-/

namespace SolidTrace.KeyCounts

open Normalise SpaceSaving
open LogQuery (AttributeType)

/-- How many keys' counts are kept per Project per day. -/
def keyCountsKept : ℕ := 1000

section LogKeys

/-- The Attribute types whose keys are counted. -/
def countedTypes : List AttributeType := [.bool, .number, .string]

/-- Texts compare byte by byte. -/
def bytewise (text : Bytes) : List ℕ := text.map UInt8.toNat

/-- Names compared byte by byte differ where they do. -/
theorem bytewise_injective : Function.Injective bytewise :=
  List.map_injective_iff.2 fun _ _ => UInt8.toNat.inj

/-- An Attribute's (type, key) pair, the unit of the key counts. -/
structure TypedKey where
  type : AttributeType
  key : Bytes

/-- What a pair is compared by: its type, then its key. -/
def TypedKey.compared (k : TypedKey) : List ℕ ×ₗ List ℕ := toLex (bytewise (Utf8.bytes k.type.text), bytewise k.key)

/-- Typed keys compare as one only when they are. -/
theorem TypedKey.compared_injective : Function.Injective TypedKey.compared := by
  rintro ⟨type, key⟩ ⟨type', key'⟩ h
  obtain ⟨htype, hkey⟩ := Prod.mk.inj (toLex.injective h)
  have htexts := congrArg Utf8.text (bytewise_injective htype)
  rw [Utf8.text_bytes, Utf8.text_bytes] at htexts
  obtain rfl : type = type' := AttributeType.text_injective htexts
  obtain rfl : key = key' := bytewise_injective hkey
  rfl

instance : LinearOrder TypedKey := LinearOrder.lift' TypedKey.compared TypedKey.compared_injective

/-- Whether a key is counted: not one with a NUL or invalid UTF-8. -/
def countable (key : Bytes) : Bool := !key.contains 0 && (String.fromUTF8? ⟨key.toArray⟩).isSome

variable {D : Type}

/-- The names of a Log's Attributes of a type. -/
def attributeNames (a : Attributes D) : AttributeType → List Bytes
  | .string => a.string.keys
  | .number => a.number.keys
  | .bool => a.bool.keys
  | .json => a.json.keys

/-- A Log's counted pairs, by type then key. -/
def logKeys (log : Log D) : List TypedKey :=
  countedTypes.flatMap fun t =>
    (((attributeNames log.attributes t).mergeSort fun a b => bytewise a ≤ bytewise b).filter countable).map
      (TypedKey.mk t)

/-- The UTC day of a Log's time, in days since 1970. -/
def LogDay (t : ℤ) : ℤ := t / (24 * 60 * 60 * 1000000000)

/-- No name stands twice among a type's attributes. -/
theorem nodup_attributeNames (a : Attributes D) (t : AttributeType) : (attributeNames a t).Nodup := by
  cases t
  · exact a.string.keys_nodup
  · exact a.number.keys_nodup
  · exact a.bool.keys_nodup
  · exact a.json.keys_nodup

/-- A Log's keys are the names of its attributes of the types that are counted. -/
theorem mem_logKeys {log : Log D} {k : TypedKey} :
    k ∈ logKeys log ↔ k.type ∈ countedTypes ∧ k.key ∈ attributeNames log.attributes k.type ∧ countable k.key := by
  simp only [logKeys, List.mem_flatMap, List.mem_map, List.mem_filter, List.mem_mergeSort]
  constructor
  · rintro ⟨t, ht, key, ⟨hname, hcountable⟩, rfl⟩
    exact ⟨ht, hname, hcountable⟩
  · rintro ⟨ht, hname, hcountable⟩
    exact ⟨k.type, ht, k.key, ⟨hname, hcountable⟩, rfl⟩

/-- A Log carries a pair once. -/
theorem nodup_logKeys (log : Log D) : (logKeys log).Nodup := by
  refine List.nodup_flatMap.2 ⟨fun t _ => ?_, ?_⟩
  · have hnames := ((List.mergeSort_perm _ fun a b => decide (bytewise a ≤ bytewise b)).nodup_iff).2
      (nodup_attributeNames log.attributes t)
    exact (hnames.filter _).map fun _ _ h => (TypedKey.mk.inj h).2
  · have htypes : countedTypes.Nodup := by decide
    refine htypes.imp fun hne => ?_
    change List.Disjoint _ _
    rw [List.disjoint_left]
    intro k hk hk'
    obtain ⟨_, _, rfl⟩ := List.mem_map.1 hk
    obtain ⟨_, _, heq⟩ := List.mem_map.1 hk'
    exact hne (TypedKey.mk.inj heq).1.symm

end LogKeys

section MergeKeyCounts

variable {K : Type*}

/-- Where a key that is new to the counts starts: from the lowest count of a full top-K. -/
def floorOf (counts : Counts K) (keep : ℕ) : ℤ :=
  if keep ≤ counts.keys.card then (counts.keys.image counts.count).min.untopD 0 else 0

/-- The floor that the code computes is one. -/
theorem isFloor_floorOf {keep : ℕ} (hkeep : 0 < keep) (counts : Counts K) : IsFloor keep counts (floorOf counts keep) where
  zero hlt := if_neg (not_le.2 hlt)
  lowest hle := by
    have hnonempty : (counts.keys.image counts.count).Nonempty :=
      (Finset.card_pos.1 (hkeep.trans_le hle)).image _
    have hmin : floorOf counts keep = (counts.keys.image counts.count).min' hnonempty := by
      rw [floorOf, if_pos hle, ← Finset.coe_min' hnonempty, WithTop.untopD_coe]
    rw [hmin]
    obtain ⟨j, hj, heq⟩ := Finset.mem_image.1 (Finset.min'_mem _ hnonempty)
    exact ⟨⟨j, hj, heq.symm⟩, fun k hk => Finset.min'_le _ _ (Finset.mem_image_of_mem _ hk)⟩

variable [LinearOrder K]

/-- The counts with a batch's added. -/
def added (counts batch : Counts K) (keep : ℕ) : Counts K where
  keys := counts.keys ∪ batch.keys
  count := mergedCount counts batch (floorOf counts keep)
  absent k hk := by
    obtain ⟨hold, hnew⟩ := not_or.1 (Finset.mem_union.not.1 hk)
    rw [mergedCount, if_neg hold, if_neg hnew]

/-- The keys, the most popular first and then by key. -/
def ranked (counts : Counts K) : List K :=
  ((counts.keys.image fun k => toLex (-counts.count k, k)).sort (· ≤ ·)).map fun entry => (ofLex entry).2

/-- What merging leaves: the counts, the keys whose count changed, and those evicted. -/
structure Merged (K : Type*) where
  counts : Counts K
  changed : Finset K
  evicted : Finset K

/-- Add a batch's counts to a day's counts, then keep only the `keep` most popular keys. -/
def mergeKeyCounts (counts batch : Counts K) (keep : ℕ) : Merged K :=
  let counts := added counts batch keep
  let evicted := if keep < counts.keys.card then ((ranked counts).drop keep).toFinset else ∅
  let counts : Counts K :=
    { keys := counts.keys \ evicted
      count := fun k => if k ∈ evicted then 0 else counts.count k
      absent := fun k hk => by
        split
        · rfl
        next hkept => exact counts.absent k fun hmem => hk (Finset.mem_sdiff.2 ⟨hmem, hkept⟩) }
  ⟨counts, batch.keys.filter (· ∈ counts.keys), evicted⟩

/-- Ranking adds no key and loses none. -/
theorem mem_ranked {counts : Counts K} {k : K} : k ∈ ranked counts ↔ k ∈ counts.keys := by
  simp [ranked]

/-- Ranking lists each key once. -/
theorem length_ranked (counts : Counts K) : (ranked counts).length = counts.keys.card := by
  rw [ranked, List.length_map, Finset.length_sort, Finset.card_image_of_injective]
  exact fun _ _ h => (Prod.mk.inj (toLex.injective h)).2

/-- No key is ranked twice. -/
theorem nodup_ranked (counts : Counts K) : (ranked counts).Nodup := by
  refine List.Nodup.map_on (fun a ha b hb hab => ?_) (Finset.sort_nodup _ _)
  obtain ⟨k, -, rfl⟩ := Finset.mem_image.1 ((Finset.mem_sort _).1 ha)
  obtain ⟨j, -, rfl⟩ := Finset.mem_image.1 ((Finset.mem_sort _).1 hb)
  obtain rfl : k = j := hab
  rfl

/-- A key ranked before another counts no less. -/
theorem pairwise_ranked (counts : Counts K) :
    (ranked counts).Pairwise fun a b => counts.count b ≤ counts.count a := by
  rw [ranked, List.pairwise_map]
  refine List.Pairwise.imp_of_mem (fun {a b} ha hb hle => ?_) (Finset.pairwise_sort _ (· ≤ ·))
  obtain ⟨k, -, rfl⟩ := Finset.mem_image.1 ((Finset.mem_sort _).1 ha)
  obtain ⟨j, -, rfl⟩ := Finset.mem_image.1 ((Finset.mem_sort _).1 hb)
  rcases Prod.Lex.le_iff.1 hle with hlt | ⟨heq, -⟩
  · exact (neg_lt_neg_iff.1 hlt).le
  · exact (neg_inj.1 heq).ge

/-- The keys evicted are the ones past `keep`. -/
theorem evicted_eq (counts batch : Counts K) (keep : ℕ) :
    (mergeKeyCounts counts batch keep).evicted = ((ranked (added counts batch keep)).drop keep).toFinset := by
  change (if keep < (added counts batch keep).keys.card then _ else ∅) = _
  split
  next => rfl
  next hle =>
    rw [List.drop_eq_nil_of_le (by rw [length_ranked]; exact not_lt.1 hle)]
    rfl

/-- What a merge keeps is what it does not evict. -/
theorem keys_mergeKeyCounts (counts batch : Counts K) (keep : ℕ) :
    (mergeKeyCounts counts batch keep).counts.keys =
      (counts.keys ∪ batch.keys) \ (mergeKeyCounts counts batch keep).evicted := rfl

/-- A key that is kept counts its sum, and the floor where it is new. -/
theorem count_mergeKeyCounts (counts batch : Counts K) (keep : ℕ) (k : K) :
    (mergeKeyCounts counts batch keep).counts.count k =
      if k ∈ (mergeKeyCounts counts batch keep).evicted then 0
      else mergedCount counts batch (floorOf counts keep) k := rfl

/-- Only a key of the two sides is evicted. -/
theorem evicted_subset (counts batch : Counts K) (keep : ℕ) :
    (mergeKeyCounts counts batch keep).evicted ⊆ counts.keys ∪ batch.keys := by
  rw [evicted_eq]
  intro k hk
  exact mem_ranked.1 (List.mem_of_mem_drop (List.mem_toFinset.1 hk))

/-- As many keys are evicted as there are too many. -/
theorem card_evicted (counts batch : Counts K) (keep : ℕ) :
    (mergeKeyCounts counts batch keep).evicted.card = (counts.keys ∪ batch.keys).card - keep := by
  rw [evicted_eq, List.toFinset_card_of_nodup ((List.drop_sublist _ _).nodup (nodup_ranked _)), List.length_drop,
    length_ranked]
  rfl

/-- `mergeKeyCounts` merges a batch as the top-K does. -/
theorem isMerge_mergeKeyCounts {keep : ℕ} (hkeep : 0 < keep) (counts batch : Counts K) :
    IsMerge keep counts batch (mergeKeyCounts counts batch keep).counts where
  floor := by
    refine ⟨floorOf counts keep, isFloor_floorOf hkeep counts, fun k hk => ?_, fun k hk j hj => ?_⟩
    · rw [keys_mergeKeyCounts] at hk
      rw [count_mergeKeyCounts, if_neg (Finset.mem_sdiff.1 hk).2]
    · rw [keys_mergeKeyCounts, Finset.sdiff_sdiff_eq_self (evicted_subset _ _ _), evicted_eq, List.mem_toFinset] at hk
      rw [keys_mergeKeyCounts, Finset.mem_sdiff, evicted_eq, List.mem_toFinset] at hj
      -- The key kept is ranked before the one evicted.
      have hmem := (List.mem_append.1 ((List.take_append_drop keep _).symm ▸ mem_ranked.2 hj.1 :
        j ∈ (ranked (added counts batch keep)).take keep ++ (ranked (added counts batch keep)).drop keep))
      have hpairs := pairwise_ranked (added counts batch keep)
      rw [← List.take_append_drop keep (ranked (added counts batch keep)), List.pairwise_append] at hpairs
      exact hpairs.2.2 j (hmem.resolve_right hj.2) k hk
  subset := Finset.sdiff_subset
  card := by
    rw [keys_mergeKeyCounts, Finset.card_sdiff_of_subset (evicted_subset _ _ _), card_evicted]
    omega

end MergeKeyCounts

end SolidTrace.KeyCounts
