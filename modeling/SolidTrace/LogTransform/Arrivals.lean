import Mathlib.Algebra.BigOperators.Group.List.Basic
import Mathlib.Logic.Function.Basic
import SolidTrace.Normalise.Normalise

/-!
# Recent arrivals

Each Project's newest Logs as they arrived, kept in memory for previews: a list of them, oldest first,
and each Service's elements of that list, up to a cap on each Service and one on the bytes of all.
-/

namespace SolidTrace.LogTransform

open Normalise (Bytes Log)

section Model

def arrivalsPerService : ℕ := 100

def arrivalsBytes : ℤ := 4 * 2 ^ 20

variable (D : Type)

/-- A Log as it arrived, and when SolidTrace received it. -/
structure Arrival where
  log : Log D
  receivedAt : ℤ
  bytes : ℤ

/-- An element of a linked list, which is told from others by its address. -/
structure Element where
  address : ℕ
  value : Arrival D

structure ProjectArrivals where
  order : List (Element D)
  services : Bytes → Option (List (Element D))
  bytes : ℤ
  last : ℕ
  /-- The address of the next element. -/
  next : ℕ

/-- A batch of a Project's Logs, with its id as a number. -/
structure LogBatch where
  id : ℕ
  logs : List (Log D)

abbrev Arrivals := ℕ → Option (ProjectArrivals D)

variable {D}

def Arrival.service (a : Arrival D) : Bytes := a.log.service

def ProjectArrivals.empty : ProjectArrivals D := ⟨[], fun _ => none, 0, 0, 0⟩

/-- Drops a Service's oldest Log. There is none when an index is out of range. -/
def ProjectArrivals.dropOldest (p : ProjectArrivals D) (service : Bytes) : Option (ProjectArrivals D) :=
  match (p.services service).getD [] with
  | [] => none
  | e :: rest =>
    some { p with
      bytes := p.bytes - e.value.bytes
      order := p.order.filter fun x => x.address ≠ e.address
      services := Function.update p.services service (if rest.length = 0 then none else some rest) }

/-- Drops the oldest Logs past the cap on bytes, in so many turns at most. -/
def ProjectArrivals.dropPast : ℕ → ProjectArrivals D → Option (ProjectArrivals D)
  | 0, _ => none
  | turns + 1, p =>
    if p.bytes > arrivalsBytes then
      match p.order with
      | [] => none
      | front :: _ => (p.dropOldest front.value.service).bind (dropPast turns)
    else some p

/-- Adds an element at the back of its Service's queue and of the list. -/
def ProjectArrivals.pushBack (p : ProjectArrivals D) (a : Arrival D) : ProjectArrivals D :=
  let e : Element D := ⟨p.next, a⟩
  { p with
    order := p.order ++ [e]
    services := Function.update p.services a.service (some ((p.services a.service).getD [] ++ [e]))
    bytes := p.bytes + a.bytes
    next := p.next + 1 }

/-- Adds a Log, dropping the oldest of its Service, or of all, past the caps. -/
def ProjectArrivals.push (turns : ℕ) (p : ProjectArrivals D) (a : Arrival D) : Option (ProjectArrivals D) :=
  let p := p.pushBack a
  if ((p.services a.service).getD []).length > arrivalsPerService then
    (p.dropOldest a.service).bind (dropPast turns)
  else p.dropPast turns

variable (turns : ℕ) (receivedAt : ℕ → ℤ)

/-- The arrivals of a batch's Logs. -/
def LogBatch.arrivals (batch : LogBatch D) : List (Arrival D) :=
  batch.logs.map fun log => ⟨log, receivedAt batch.id, Normalise.size log⟩

def ProjectArrivals.addBatch (p : ProjectArrivals D) (batch : LogBatch D) : Option (ProjectArrivals D) :=
  ((batch.arrivals receivedAt).foldlM (push turns) p).map fun p => { p with last := batch.id }

/-- Adds the Logs of a Project's batches. -/
def Arrivals.add (a : Arrivals D) (project : ℕ) (batches : List (LogBatch D)) : Option (Arrivals D) :=
  if batches.length = 0 then some a
  else
    (batches.foldlM (ProjectArrivals.addBatch turns receivedAt) ((a project).getD .empty)).map fun p =>
      Function.update a project (some p)

/-- The arrivals after so many calls. -/
def Arrivals.addAll (calls : List (ℕ × List (LogBatch D))) : Option (Arrivals D) :=
  calls.foldlM (fun a call => a.add turns receivedAt call.1 call.2) fun _ => none

end Model

section Newest

variable {D : Type}

/-- The arrivals of a Service. -/
def ofService (service : Bytes) (added : List (Arrival D)) : List (Arrival D) :=
  added.filter fun a => a.service = service

/-- The arrivals after which fewer than the cap on a Service came of theirs. -/
def newestOfEach : List (Arrival D) → List (Arrival D)
  | [] => []
  | a :: rest =>
    if (ofService a.service rest).length < arrivalsPerService then a :: newestOfEach rest
    else newestOfEach rest

/-- The longest end of some arrivals that is within the cap on bytes. -/
def withinBytes : List (Arrival D) → List (Arrival D)
  | [] => []
  | a :: rest =>
    if ((a :: rest).map Arrival.bytes).sum ≤ arrivalsBytes then a :: rest else withinBytes rest

/-- An arrival is kept when fewer newer ones of its service are. -/
theorem newestOfEach_cons (a : Arrival D) (rest : List (Arrival D)) : newestOfEach (a :: rest) =
    if (ofService a.service rest).length < arrivalsPerService then a :: newestOfEach rest
    else newestOfEach rest := rfl

/-- All arrivals are kept where they take no more bytes than allowed. -/
theorem withinBytes_cons (a : Arrival D) (rest : List (Arrival D)) : withinBytes (a :: rest) =
    if ((a :: rest).map Arrival.bytes).sum ≤ arrivalsBytes then a :: rest else withinBytes rest := rfl

/-- What the caps leave of some arrivals, each put after what they left of those before it. -/
def newestKept (added : List (Arrival D)) : List (Arrival D) :=
  added.foldl (fun kept a => withinBytes (newestOfEach (kept ++ [a]))) []

/-- The newest of each Service among the newest of all, which are at least as many as are within the cap
on bytes. -/
def Recent (added kept : List (Arrival D)) : Prop :=
  ∃ new, new <:+ added ∧ withinBytes added <:+ new ∧ kept = newestOfEach new

variable {l t x y : List (Arrival D)} {f : Arrival D}

/-- The newest arrivals are kept. -/
theorem withinBytes_suffix (l : List (Arrival D)) : withinBytes l <:+ l := by
  induction l with
  | nil => exact List.suffix_rfl
  | cons a rest ih =>
    rw [withinBytes_cons]
    split
    · exact List.suffix_rfl
    · exact ih.trans (List.suffix_cons a rest)

/-- What is kept takes no more bytes than allowed. -/
theorem sum_withinBytes_le (l : List (Arrival D)) :
    ((withinBytes l).map Arrival.bytes).sum ≤ arrivalsBytes := by
  induction l with
  | nil => exact show (0 : ℤ) ≤ 4 * 2 ^ 20 by decide
  | cons a rest ih =>
    rw [withinBytes_cons]
    split
    next hle => exact hle
    · exact ih

/-- No longer end is within the cap. -/
theorem suffix_withinBytes (ht : t <:+ l) (hsum : (t.map Arrival.bytes).sum ≤ arrivalsBytes) :
    t <:+ withinBytes l := by
  induction l with
  | nil => exact ht
  | cons a rest ih =>
    rw [withinBytes_cons]
    split
    · exact ht
    next hpast =>
      cases List.suffix_cons_iff.1 ht with
      | inl hall => exact absurd (hall ▸ hsum) hpast
      | inr hrest => exact ih hrest

/-- The arrivals of a service are those of each list. -/
theorem ofService_append (service : Bytes) (x y : List (Arrival D)) :
    ofService service (x ++ y) = ofService service x ++ ofService service y := List.filter_append ..

/-- An arrival of another service is none of a service's. -/
theorem ofService_cons_of_ne {service : Bytes} (hf : f.service ≠ service) (l : List (Arrival D)) :
    ofService service (f :: l) = ofService service l := List.filter_cons_of_neg (by simpa using hf)

/-- An arrival is one of its own service's. -/
theorem ofService_cons_self (f : Arrival D) (l : List (Arrival D)) :
    ofService f.service (f :: l) = f :: ofService f.service l := List.filter_cons_of_pos (by simp)

/-- The newest of a Service are as many as there are, up to the cap. -/
theorem length_ofService_newestOfEach (service : Bytes) (l : List (Arrival D)) :
    (ofService service (newestOfEach l)).length = min (ofService service l).length arrivalsPerService := by
  induction l with
  | nil => rfl
  | cons a rest ih =>
    rw [newestOfEach_cons]
    by_cases hservice : a.service = service
    · subst hservice
      rw [ofService_cons_self, List.length_cons]
      split
      next hfew => rw [ofService_cons_self, List.length_cons, ih]; omega
      next hmany => rw [ih]; omega
    · rw [ofService_cons_of_ne hservice]
      split
      · rw [ofService_cons_of_ne hservice, ih]
      · exact ih

/-- The newest of each Service are so with others before them. -/
theorem newestOfEach_suffix (x y : List (Arrival D)) : newestOfEach y <:+ newestOfEach (x ++ y) := by
  induction x with
  | nil => exact List.suffix_rfl
  | cons a rest ih =>
    rw [List.cons_append, newestOfEach_cons]
    split
    · exact ih.trans (List.suffix_cons a _)
    · exact ih

/-- An end of the newest of each Service is that of an end of all. -/
theorem exists_of_suffix_newestOfEach (ht : t <:+ newestOfEach (x ++ y)) (hy : newestOfEach y <:+ t) :
    ∃ x', x' <:+ x ∧ t = newestOfEach (x' ++ y) := by
  induction x with
  | nil => exact ⟨[], List.suffix_rfl, ht.eq_of_length_le hy.length_le⟩
  | cons a rest ih =>
    have hrest (h : t <:+ newestOfEach (rest ++ y)) :
        ∃ x', x' <:+ a :: rest ∧ t = newestOfEach (x' ++ y) := by
      obtain ⟨x', hx', heq⟩ := ih h
      exact ⟨x', hx'.trans (List.suffix_cons a rest), heq⟩
    have hnewest := ht
    rw [List.cons_append, newestOfEach_cons] at hnewest
    split at hnewest
    next hfew =>
      cases List.suffix_cons_iff.1 hnewest with
      | inl hall =>
        refine ⟨a :: rest, List.suffix_rfl, ?_⟩
        rw [List.cons_append, newestOfEach_cons, if_pos hfew]
        exact hall
      | inr h => exact hrest h
    · exact hrest hnewest

/-- Adding one to the newest of each Service leaves what adding it to all does. -/
theorem newestOfEach_append (l : List (Arrival D)) (f : Arrival D) :
    newestOfEach (newestOfEach l ++ [f]) = newestOfEach (l ++ [f]) := by
  induction l with
  | nil => rfl
  | cons a rest ih =>
    have hcount := length_ofService_newestOfEach a.service rest
    rw [List.cons_append, newestOfEach_cons, newestOfEach_cons, ofService_append, List.length_append]
    split
    next hfew =>
      rw [List.cons_append, newestOfEach_cons, ofService_append, List.length_append, hcount, ih,
        min_eq_left hfew.le]
    next hmany => rw [ih, if_neg (by omega)]

/-- Fewer arrivals take no more bytes. -/
theorem sum_newestOfEach_le (hsize : ∀ a ∈ l, 0 ≤ a.bytes) :
    ((newestOfEach l).map Arrival.bytes).sum ≤ (l.map Arrival.bytes).sum := by
  induction l with
  | nil => exact le_rfl
  | cons a rest ih =>
    obtain ⟨ha, hrest⟩ := List.forall_mem_cons.1 hsize
    rw [newestOfEach_cons]
    split
    · simpa using ih hrest
    · rw [List.map_cons, List.sum_cons]
      exact (ih hrest).trans (le_add_of_nonneg_left ha)

/-- Where each Service is within its cap, nothing is left out. -/
theorem newestOfEach_eq_self (hcaps : ∀ service, (ofService service l).length ≤ arrivalsPerService) :
    newestOfEach l = l := by
  induction l with
  | nil => rfl
  | cons a rest ih =>
    have hself := hcaps a.service
    rw [ofService_cons_self, List.length_cons] at hself
    rw [newestOfEach_cons, if_pos (Nat.lt_of_succ_le hself), ih]
    intro service
    exact (List.Sublist.length_le ((List.sublist_cons_self a rest).filter _)).trans (hcaps service)

/-- Where one Service is one past its cap, its oldest is left out. -/
theorem newestOfEach_of_past (hx : ∀ a ∈ x, a.service ≠ f.service)
    (hfull : (ofService f.service y).length = arrivalsPerService)
    (hcaps : ∀ service ≠ f.service, (ofService service (x ++ f :: y)).length ≤ arrivalsPerService) :
    newestOfEach (x ++ f :: y) = x ++ y := by
  induction x with
  | nil =>
    rw [List.nil_append, newestOfEach_cons, if_neg (by omega), newestOfEach_eq_self]
    · rfl
    intro service
    by_cases hservice : f.service = service
    · exact hservice ▸ hfull.le
    · have hcap := hcaps service (Ne.symm hservice)
      rwa [List.nil_append, ofService_cons_of_ne hservice] at hcap
  | cons a rest ih =>
    obtain ⟨ha, hrest⟩ := List.forall_mem_cons.1 hx
    have hself := hcaps a.service ha
    rw [List.cons_append, ofService_cons_self, List.length_cons] at hself
    rw [List.cons_append, List.cons_append, newestOfEach_cons, if_pos (Nat.lt_of_succ_le hself), ih hrest]
    intro service hservice
    refine (List.Sublist.length_le ?_).trans (hcaps service hservice)
    exact (List.sublist_cons_self a (rest ++ f :: y)).filter _

/-- An arrival more is kept, and then the oldest go. -/
theorem newestKept_append (added : List (Arrival D)) (a : Arrival D) :
    newestKept (added ++ [a]) = withinBytes (newestOfEach (newestKept added ++ [a])) := by
  rw [newestKept, List.foldl_append]
  rfl

/-- What the caps leave is recent: the newest of each Service, and all that is within the cap on bytes but
for a Service's past its own. -/
theorem newestKept_recent {added : List (Arrival D)} (hsize : ∀ a ∈ added, 0 ≤ a.bytes) :
    Recent added (newestKept added) := by
  induction added using List.reverseRecOn with
  | nil => exact ⟨[], List.suffix_rfl, List.suffix_rfl, rfl⟩
  | append_singleton added a ih =>
    obtain ⟨new, hnew, hwithin, hkept⟩ := ih fun b hb => hsize b (List.mem_append_left _ hb)
    have ha : 0 ≤ a.bytes := hsize a (by simp)
    have hstep : newestKept (added ++ [a]) = withinBytes (newestOfEach (new ++ [a])) := by
      rw [newestKept_append, hkept, newestOfEach_append]
    have hend : withinBytes (added ++ [a]) <:+ new ++ [a] := by
      cases List.suffix_concat_iff.1 (withinBytes_suffix (added ++ [a])) with
      | inl hnil => rw [hnil]; exact List.nil_suffix
      | inr h =>
        obtain ⟨older, heq, holder⟩ := h
        have hsum := sum_withinBytes_le (added ++ [a])
        rw [heq, List.map_append, List.sum_append, List.map_singleton, List.sum_singleton] at hsum
        have hsuffix : older <:+ new := (suffix_withinBytes holder (by omega)).trans hwithin
        rw [heq]
        exact List.suffix_append_self_iff.2 hsuffix
    obtain ⟨before, hsplit⟩ := hend
    have hfits : newestOfEach (withinBytes (added ++ [a])) <:+ withinBytes (newestOfEach (new ++ [a])) := by
      rw [← hsplit]
      apply suffix_withinBytes (newestOfEach_suffix _ _)
      refine (sum_newestOfEach_le fun b hb => ?_).trans (sum_withinBytes_le (added ++ [a]))
      exact hsize b ((withinBytes_suffix _).mem hb)
    have hends := withinBytes_suffix (newestOfEach (new ++ [a]))
    rw [hstep]
    rw [← hsplit] at hends hfits ⊢
    obtain ⟨before', hbefore', heq⟩ := exists_of_suffix_newestOfEach hends hfits
    refine ⟨before' ++ withinBytes (added ++ [a]), ?_, List.suffix_append _ _, heq⟩
    have hall : before ++ withinBytes (added ++ [a]) <:+ added ++ [a] := by
      rw [hsplit]
      exact List.suffix_append_self_iff.2 hnew
    exact (List.suffix_append_self_iff.2 hbefore').trans hall

end Newest

section Invariant

variable {D : Type}

/-- A Service's elements of the list. -/
def ProjectArrivals.elements (p : ProjectArrivals D) (service : Bytes) : List (Element D) :=
  p.order.filter fun e => e.value.service = service

/-- The list and the queues hold the newest of what was added. -/
structure Consistent (added : List (Arrival D)) (p : ProjectArrivals D) : Prop where
  sum : p.bytes = (p.order.map fun e => e.value.bytes).sum
  queues : ∀ service, p.services service =
    if p.elements service = [] then none else some (p.elements service)
  newest : ∀ service, (p.elements service).map Element.value <:+ ofService service added
  inOrder : (p.order.map Element.value).Sublist added
  addresses : (p.order.map Element.address).Nodup
  fresh : ∀ e ∈ p.order, e.address < p.next

/-- Each Service is within its cap. -/
def WithinCaps (p : ProjectArrivals D) : Prop := ∀ service, (p.elements service).length ≤ arrivalsPerService

/-- The arrivals of the list, oldest first. -/
def ProjectArrivals.values (p : ProjectArrivals D) : List (Arrival D) := p.order.map Element.value

/-- What holds of a Project's arrivals after some were added. -/
structure Kept (added : List (Arrival D)) (p : ProjectArrivals D) : Prop extends Consistent added p where
  perService : WithinCaps p
  total : p.bytes ≤ arrivalsBytes
  kept : p.values = newestKept added

variable {added : List (Arrival D)} {p : ProjectArrivals D}

/-- Nothing is kept before anything arrives. -/
theorem kept_empty : Kept [] (.empty : ProjectArrivals D) where
  sum := rfl
  queues _ := rfl
  newest _ := List.nil_suffix
  inOrder := List.nil_sublist _
  addresses := List.nodup_nil
  fresh := nofun
  perService _ := Nat.zero_le _
  total := show (0 : ℤ) ≤ 4 * 2 ^ 20 by decide
  kept := rfl

/-- A Service's elements hold its arrivals of the list. -/
theorem ofService_values (p : ProjectArrivals D) (service : Bytes) :
    ofService service p.values = (p.elements service).map Element.value := List.filter_map

/-- As many arrivals stand under a service as are kept of it. -/
theorem length_ofService_values (p : ProjectArrivals D) (service : Bytes) :
    (ofService service p.values).length = (p.elements service).length := by
  rw [ofService_values, List.length_map]

/-- The services hold the arrivals that are kept of each. -/
theorem Consistent.getD_services (h : Consistent added p) (service : Bytes) :
    (p.services service).getD [] = p.elements service := by
  rw [h.queues]
  split
  case isTrue hnil => rw [hnil, Option.getD_none]
  case isFalse => rfl

/-- The head of a Service's queue is its first element of the list. -/
theorem order_of_head {service : Bytes} {e : Element D} {rest : List (Element D)}
    (helements : p.elements service = e :: rest) :
    ∃ x y, p.order = x ++ e :: y ∧ (∀ f ∈ x, f.value.service ≠ service) ∧ e.value.service = service ∧
      (x ++ y).filter (fun f => f.value.service = service) = rest ∧
      ∀ other ≠ service, (x ++ y).filter (fun f => f.value.service = other) = p.elements other := by
  have hmem : e ∈ p.order.filter fun e => e.value.service = service := by
    change e ∈ p.elements service
    rw [helements]
    exact List.mem_cons_self
  obtain ⟨hin, hservice⟩ := List.mem_filter.1 hmem
  rw [decide_eq_true_iff] at hservice
  obtain ⟨x, y, horder, hnot⟩ := List.eq_append_cons_of_mem hin
  have hhead := helements
  rw [ProjectArrivals.elements, horder, List.filter_append, List.filter_cons_of_pos (by simpa using hservice)]
    at hhead
  -- An element of the Service before the head would be its first.
  have hfirst : x.filter (fun f => f.value.service = service) = [] := by
    cases hfirst : x.filter (fun f => f.value.service = service) with
    | nil => rfl
    | cons f fs =>
      rw [hfirst, List.cons_append, List.cons.injEq] at hhead
      have hf : f ∈ x := (List.mem_filter.1 (hfirst ▸ List.mem_cons_self)).1
      exact absurd (hhead.1 ▸ hf) hnot
  refine ⟨x, y, horder, ?_, hservice, ?_, ?_⟩
  · intro f hf hsame
    have hmem : f ∈ x.filter fun f => f.value.service = service :=
      List.mem_filter.2 ⟨hf, decide_eq_true hsame⟩
    rw [hfirst] at hmem
    cases hmem
  · rw [hfirst, List.nil_append, List.cons.injEq] at hhead
    rw [List.filter_append, hfirst, List.nil_append, hhead.2]
  · intro other hne
    rw [ProjectArrivals.elements, horder, List.filter_append, List.filter_append,
      List.filter_cons_of_neg (by simpa [hservice] using hne.symm)]

/-- Removing an element leaves what is before it and after it. -/
theorem Consistent.remove_eq (h : Consistent added p) {e : Element D} {x y : List (Element D)}
    (horder : p.order = x ++ e :: y) : p.order.filter (fun f => f.address ≠ e.address) = x ++ y := by
  have haddresses := h.addresses
  rw [horder, List.map_append, List.map_cons, List.nodup_append, List.nodup_cons] at haddresses
  obtain ⟨-, ⟨hy, -⟩, hx⟩ := haddresses
  rw [horder, List.filter_append, List.filter_cons_of_neg (by simp),
    List.filter_eq_self.2, List.filter_eq_self.2]
  · intro f hf
    refine decide_eq_true fun heq => hy ?_
    exact List.mem_map.2 ⟨f, hf, heq⟩
  · intro f hf
    exact decide_eq_true (hx _ (List.mem_map_of_mem hf) _ List.mem_cons_self)

/-- Dropping a Service's oldest Log takes the head of its queue, and nothing else. -/
theorem Consistent.dropOldest (h : Consistent added p) {service : Bytes} {e : Element D}
    {rest : List (Element D)} (helements : p.elements service = e :: rest) :
    ∃ p', p.dropOldest service = some p' ∧ Consistent added p' ∧ p'.elements service = rest ∧
      (∀ other ≠ service, p'.elements other = p.elements other) ∧
      ∃ x y, p.order = x ++ e :: y ∧ (∀ f ∈ x, f.value.service ≠ service) ∧ e.value.service = service ∧
        p'.order = x ++ y := by
  obtain ⟨x, y, horder, hbefore, hservice, hsame, hother⟩ := order_of_head helements
  have hremoved := h.remove_eq horder
  have hsub : (x ++ y).Sublist p.order := hremoved ▸ List.filter_sublist
  have hdrop : p.dropOldest service = some { p with
      bytes := p.bytes - e.value.bytes
      order := x ++ y
      services := Function.update p.services service (if rest.length = 0 then none else some rest) } := by
    have hqueue : (p.services service).getD [] = e :: rest := by rw [h.getD_services, helements]
    rw [ProjectArrivals.dropOldest, hqueue, ← hremoved]
  refine ⟨_, hdrop, ⟨?_, ?_, ?_, ?_, ?_, ?_⟩, hsame, hother, x, y, horder, hbefore, hservice, rfl⟩
  · simp only [h.sum, horder, List.map_append, List.map_cons, List.sum_append, List.sum_cons]
    ring
  · intro other
    by_cases hne : other = service
    · subst hne
      simp only [Function.update_self, ProjectArrivals.elements, hsame, List.length_eq_zero_iff]
    · simp only [Function.update_of_ne hne, ProjectArrivals.elements, hother other hne]
      exact h.queues other
  · intro other
    by_cases hne : other = service
    · subst hne
      simp only [ProjectArrivals.elements, hsame]
      have hsuffix := h.newest other
      rw [helements, List.map_cons] at hsuffix
      exact (List.suffix_cons _ _).trans hsuffix
    · simp only [ProjectArrivals.elements, hother other hne]
      exact h.newest other
  · exact (hsub.map _).trans h.inOrder
  · exact h.addresses.sublist (hsub.map _)
  · exact fun f hf => h.fresh f (hsub.mem hf)

/-- Adding a Log at the back. -/
theorem Consistent.pushBack (h : Consistent added p) (a : Arrival D) :
    Consistent (added ++ [a]) (p.pushBack a) ∧
      (∀ service, (p.pushBack a).elements service =
        p.elements service ++ if a.service = service then [⟨p.next, a⟩] else []) ∧
      (p.pushBack a).order.length = p.order.length + 1 := by
  have helements (service : Bytes) : (p.pushBack a).elements service =
      p.elements service ++ if a.service = service then [⟨p.next, a⟩] else [] := by
    rw [ProjectArrivals.elements, ProjectArrivals.pushBack, List.filter_append]
    congr 1
    by_cases hservice : a.service = service
    · simp [hservice]
    · simp [hservice]
  refine ⟨⟨?_, ?_, ?_, ?_, ?_, ?_⟩, helements, List.length_append⟩
  · simp [ProjectArrivals.pushBack, h.sum]
  · intro service
    rw [helements]
    simp only [ProjectArrivals.pushBack]
    by_cases hservice : a.service = service
    · subst hservice
      rw [Function.update_self, h.getD_services, if_pos rfl, if_neg (by simp)]
    · rw [Function.update_of_ne (Ne.symm hservice), h.queues, if_neg hservice, List.append_nil]
  · intro service
    rw [helements, ofService, List.filter_append, List.map_append]
    obtain ⟨older, holder⟩ := h.newest service
    refine ⟨older, ?_⟩
    rw [← List.append_assoc, holder, ofService]
    congr 1
    by_cases hservice : a.service = service
    · simp [hservice]
    · simp [hservice]
  · simp only [ProjectArrivals.pushBack, List.map_append]
    exact h.inOrder.append_right _
  · simp only [ProjectArrivals.pushBack, List.map_append, List.map_cons, List.map_nil]
    rw [List.nodup_append]
    refine ⟨h.addresses, List.nodup_singleton _, ?_⟩
    intro x hx y hy
    obtain ⟨e, he, rfl⟩ := List.mem_map.1 hx
    rw [List.mem_singleton.1 hy]
    exact (h.fresh e he).ne
  · intro e he
    rcases List.mem_append.1 he with he | he
    · exact Nat.lt_succ_of_lt (h.fresh e he)
    · rw [List.mem_singleton.1 he]
      exact Nat.lt_succ_self _

/-- Dropping past the cap on bytes ends in as many turns as there are Logs, each of the front's Service,
whose queue it heads, and leaves the longest end of the list that is within the cap. -/
theorem Consistent.dropPast {turns : ℕ} (h : Consistent added p) (hcaps : WithinCaps p)
    (hturns : p.order.length < turns) :
    ∃ p', p.dropPast turns = some p' ∧ Consistent added p' ∧ WithinCaps p' ∧ p'.bytes ≤ arrivalsBytes ∧
      p'.values = withinBytes p.values := by
  induction turns generalizing p with
  | zero => omega
  | succ turns ih =>
    have hsum : p.bytes = (p.values.map Arrival.bytes).sum := by
      rw [h.sum, ProjectArrivals.values, List.map_map]
      rfl
    rw [ProjectArrivals.dropPast]
    split
    case isFalse hle =>
      refine ⟨p, rfl, h, hcaps, le_of_not_gt hle, ?_⟩
      cases hvalues : p.values with
      | nil => rfl
      | cons a rest =>
        rw [withinBytes_cons, if_pos]
        rw [← hvalues, ← hsum]
        exact le_of_not_gt hle
    case isTrue hpast =>
      cases horder : p.order with
      | nil =>
        rw [h.sum, horder, List.map_nil, List.sum_nil] at hpast
        exact absurd hpast (show ¬ (0 : ℤ) > 4 * 2 ^ 20 by decide)
      | cons front rest =>
        have hhead : p.elements front.value.service =
            front :: rest.filter fun e => e.value.service = front.value.service := by
          rw [ProjectArrivals.elements, horder]
          exact List.filter_cons_of_pos (by simp)
        obtain ⟨p', hdrop, hconsistent, hsame, hother, x, y, hsplit, hbefore, -, horder'⟩ :=
          h.dropOldest hhead
        have hrest : p'.order = rest := by
          cases x with
          | nil =>
            rw [horder, List.nil_append, List.cons.injEq] at hsplit
            rw [horder', List.nil_append, hsplit.2]
          | cons first x =>
            rw [horder, List.cons_append, List.cons.injEq] at hsplit
            exact absurd (congrArg (·.value.service) hsplit.1.symm) (hbefore first List.mem_cons_self)
        have hcaps' : WithinCaps p' := by
          intro service
          have hcap := hcaps service
          by_cases hne : service = front.value.service
          · subst hne
            rw [hhead, List.length_cons] at hcap
            rw [hsame]
            omega
          · rwa [hother service hne]
        have hwithin : withinBytes p.values = withinBytes p'.values := by
          rw [hsum] at hpast
          rw [ProjectArrivals.values, horder, List.map_cons] at hpast ⊢
          rw [withinBytes_cons, if_neg (not_le_of_gt hpast), ProjectArrivals.values, hrest]
        simp only [hdrop, Option.bind_some, hwithin]
        refine ih hconsistent hcaps' ?_
        rw [hrest]
        rw [horder, List.length_cons] at hturns
        omega

/-- Where a Service is one past its cap, dropping its first element leaves the newest of each. -/
theorem values_of_past {p' : ProjectArrivals D} {service : Bytes} {e : Element D} {x y : List (Element D)}
    (hsplit : p.order = x ++ e :: y) (horder : p'.order = x ++ y) (hservice : e.value.service = service)
    (hbefore : ∀ f ∈ x, f.value.service ≠ service)
    (hfull : (p'.elements service).length = arrivalsPerService)
    (hothers : ∀ other ≠ service, (p.elements other).length ≤ arrivalsPerService) :
    p'.values = newestOfEach p.values := by
  subst hservice
  have hleft : p'.values = x.map Element.value ++ y.map Element.value := by
    rw [ProjectArrivals.values, horder, List.map_append]
  have hall : p.values = x.map Element.value ++ e.value :: y.map Element.value := by
    rw [ProjectArrivals.values, hsplit, List.map_append, List.map_cons]
  have hbeforeValues : ∀ b ∈ x.map Element.value, b.service ≠ e.value.service := by
    intro b hb
    obtain ⟨f, hf, rfl⟩ := List.mem_map.1 hb
    exact hbefore f hf
  have hnone : ofService e.value.service (x.map Element.value) = [] := by
    rw [ofService, List.filter_eq_nil_iff]
    intro b hb
    simpa using hbeforeValues b hb
  rw [hleft, hall, newestOfEach_of_past hbeforeValues]
  · rw [← length_ofService_values, hleft, ofService_append, hnone, List.nil_append] at hfull
    exact hfull
  · intro other hne
    rw [← hall, length_ofService_values]
    exact hothers other hne

/-- Past its cap a Service's oldest is dropped, and else none: what is left is the newest of each. -/
theorem Kept.dropPerService (h : Kept added p) (a : Arrival D) :
    ∃ p', (if ((p.pushBack a).services a.service |>.getD []).length > arrivalsPerService then
        (p.pushBack a).dropOldest a.service else some (p.pushBack a)) = some p' ∧
      Consistent (added ++ [a]) p' ∧ WithinCaps p' ∧ p'.values = newestOfEach (p.values ++ [a]) ∧
      p'.order.length ≤ p.order.length + 1 := by
  obtain ⟨hpushed, helements, hlength⟩ := h.toConsistent.pushBack a
  have hvalues : (p.pushBack a).values = p.values ++ [a] := by
    simp [ProjectArrivals.values, ProjectArrivals.pushBack]
  have hother : ∀ service ≠ a.service, ((p.pushBack a).elements service).length ≤ arrivalsPerService := by
    intro service hne
    rw [helements, if_neg (Ne.symm hne), List.append_nil]
    exact h.perService service
  have hcap := h.perService a.service
  have hcount : ((p.pushBack a).elements a.service).length = (p.elements a.service).length + 1 := by
    rw [helements, if_pos rfl, List.length_append, List.length_singleton]
  rw [hpushed.getD_services]
  split
  case isTrue hpast =>
    cases hhead : (p.pushBack a).elements a.service with
    | nil => simp [helements] at hhead
    | cons e rest =>
      obtain ⟨p', hdrop, hconsistent, hsame, hothers, x, y, hsplit, hbefore, hservice, horder⟩ :=
        hpushed.dropOldest hhead
      rw [hhead, List.length_cons] at hpast hcount
      refine ⟨p', hdrop, hconsistent, fun service => ?_, ?_, ?_⟩
      · by_cases hne : service = a.service
        · subst hne
          rw [hsame]
          omega
        · rw [hothers service hne]
          exact hother service hne
      · rw [← hvalues]
        have hfull : (p'.elements a.service).length = arrivalsPerService := by
          rw [hsame]
          omega
        exact values_of_past hsplit horder hservice hbefore hfull hother
      · rw [← hlength, hsplit, horder]
        simp
  case isFalse hle =>
    have hcaps : WithinCaps (p.pushBack a) := by
      intro service
      by_cases hne : service = a.service
      · subst hne
        omega
      · exact hother service hne
    refine ⟨p.pushBack a, rfl, hpushed, hcaps, ?_, hlength.le⟩
    rw [← hvalues, newestOfEach_eq_self]
    intro service
    rw [length_ofService_values]
    exact hcaps service

/-- Adding a Log ends, touches no empty list, and keeps the caps and the newest. -/
theorem Kept.push (h : Kept added p) (a : Arrival D) {turns : ℕ} (hturns : added.length + 1 < turns) :
    ∃ p', p.push turns a = some p' ∧ Kept (added ++ [a]) p' := by
  obtain ⟨p₁, hdrop, hconsistent, hcaps, hvalues, hlength⟩ := h.dropPerService a
  have horder : p.order.length ≤ added.length := by
    simpa using h.inOrder.length_le
  have hroom : p₁.order.length < turns := by omega
  obtain ⟨p₂, hpast, hconsistent', hcaps', htotal, hvalues'⟩ := hconsistent.dropPast hcaps hroom
  refine ⟨p₂, ?_, hconsistent', hcaps', htotal, ?_⟩
  · rw [ProjectArrivals.push]
    split
    case isTrue hfull =>
      rw [if_pos hfull] at hdrop
      rw [hdrop, Option.bind_some, hpast]
    case isFalse hroom =>
      rw [if_neg hroom] at hdrop
      rw [Option.some.inj hdrop, hpast]
  · rw [hvalues', hvalues, h.kept, newestKept_append]

/-- Arrivals pushed one after another are kept as they should be. -/
theorem Kept.pushAll (h : Kept added p) (arrivals : List (Arrival D)) {turns : ℕ}
    (hturns : added.length + arrivals.length < turns) :
    ∃ p', arrivals.foldlM (ProjectArrivals.push turns) p = some p' ∧ Kept (added ++ arrivals) p' := by
  induction arrivals generalizing added p with
  | nil => exact ⟨p, rfl, by rwa [List.append_nil]⟩
  | cons a arrivals ih =>
    rw [List.length_cons] at hturns
    obtain ⟨p₁, hpush, hkept⟩ := h.push a (show added.length + 1 < turns by omega)
    obtain ⟨p₂, hrest, hkept'⟩ := ih hkept (by
      rw [List.length_append, List.length_singleton]
      omega)
    refine ⟨p₂, ?_, by rwa [List.append_assoc] at hkept'⟩
    rw [List.foldlM_cons, hpush]
    exact hrest

end Invariant

section Runs

variable {D : Type} (receivedAt : ℕ → ℤ)

/-- The arrivals of some batches, in order. -/
def batchArrivals (batches : List (LogBatch D)) : List (Arrival D) :=
  batches.flatMap (LogBatch.arrivals receivedAt)

/-- What was added of a Project. -/
def addedTo (project : ℕ) (calls : List (ℕ × List (LogBatch D))) : List (Arrival D) :=
  (calls.filter fun call => call.1 = project).flatMap fun call => batchArrivals receivedAt call.2

/-- The number of Logs in some calls. -/
def logCount (calls : List (ℕ × List (LogBatch D))) : ℕ :=
  (calls.map fun call => (batchArrivals receivedAt call.2).length).sum

/-- A Project's arrivals are kept and recent, or it has none. -/
def KeptOf (added : List (Arrival D)) : Option (ProjectArrivals D) → Prop
  | none => added = []
  | some p => Kept added p ∧ Recent added p.values

/-- A Log's size is no less than nothing. -/
theorem bytes_nonneg {project : ℕ} {calls : List (ℕ × List (LogBatch D))} :
    ∀ a ∈ addedTo receivedAt project calls, 0 ≤ a.bytes := by
  intro a ha
  obtain ⟨call, -, ha⟩ := List.mem_flatMap.1 ha
  obtain ⟨batch, -, ha⟩ := List.mem_flatMap.1 ha
  obtain ⟨log, -, rfl⟩ := List.mem_map.1 ha
  exact Int.natCast_nonneg _

/-- No more is added for a Project than arrived. -/
theorem length_addedTo_le (project : ℕ) (calls : List (ℕ × List (LogBatch D))) :
    (addedTo receivedAt project calls).length ≤ logCount receivedAt calls := by
  induction calls with
  | nil => exact Nat.zero_le _
  | cons call calls ih =>
    rw [addedTo, logCount, List.map_cons, List.sum_cons, List.filter_cons]
    split
    · rw [List.flatMap_cons, List.length_append]
      exact Nat.add_le_add_left ih _
    · exact ih.trans (Nat.le_add_left _ _)

/-- Adding batches keeps what holds of a Project's arrivals. -/
theorem Kept.addBatches {added : List (Arrival D)} {p : ProjectArrivals D} (h : Kept added p)
    (batches : List (LogBatch D)) {turns : ℕ}
    (hturns : added.length + (batchArrivals receivedAt batches).length < turns) :
    ∃ p', batches.foldlM (ProjectArrivals.addBatch turns receivedAt) p = some p' ∧
      Kept (added ++ batchArrivals receivedAt batches) p' := by
  induction batches generalizing added p with
  | nil => exact ⟨p, rfl, by rwa [batchArrivals, List.flatMap_nil, List.append_nil]⟩
  | cons batch batches ih =>
    rw [batchArrivals, List.flatMap_cons, List.length_append] at hturns
    have hfirst : added.length + (batch.arrivals receivedAt).length < turns := by omega
    obtain ⟨p₁, hpush, hkept⟩ := h.pushAll (batch.arrivals receivedAt) hfirst
    have hlast : Kept (added ++ batch.arrivals receivedAt) { p₁ with last := batch.id } :=
      ⟨⟨hkept.sum, hkept.queues, hkept.newest, hkept.inOrder, hkept.addresses, hkept.fresh⟩,
        hkept.perService, hkept.total, hkept.kept⟩
    obtain ⟨p₂, hrest, hkept'⟩ := ih hlast (by
      rw [List.length_append]
      exact (Nat.add_assoc _ _ _).trans_lt hturns)
    refine ⟨p₂, ?_, by rwa [List.append_assoc] at hkept'⟩
    rw [List.foldlM_cons, ProjectArrivals.addBatch, hpush]
    exact hrest

/-- After any calls each Project's arrivals are within their caps and the newest of what was added, all
that the caps leave of it, the queues are the list's, and as many turns as there are Logs are enough. -/
theorem arrivals_kept (calls : List (ℕ × List (LogBatch D))) {turns : ℕ}
    (hturns : logCount receivedAt calls < turns) :
    ∃ a : Arrivals D, Arrivals.addAll turns receivedAt calls = some a ∧
      ∀ project, KeptOf (addedTo receivedAt project calls) (a project) := by
  induction calls using List.reverseRecOn with
  | nil => exact ⟨fun _ => none, rfl, fun _ => rfl⟩
  | append_singleton calls call ih =>
    have hcount : logCount receivedAt (calls ++ [call]) =
        logCount receivedAt calls + (batchArrivals receivedAt call.2).length := by
      simp [logCount]
    have hadded (project : ℕ) : addedTo receivedAt project (calls ++ [call]) =
        addedTo receivedAt project calls ++
          if call.1 = project then batchArrivals receivedAt call.2 else [] := by
      rw [addedTo, List.filter_append, List.flatMap_append]
      congr 1
      by_cases hproject : call.1 = project
      · simp [hproject]
      · simp [hproject]
    rw [hcount] at hturns
    obtain ⟨a, ha, hkept⟩ := ih (by omega)
    have hall : Arrivals.addAll turns receivedAt (calls ++ [call]) =
        a.add turns receivedAt call.1 call.2 := by
      rw [Arrivals.addAll] at ha
      rw [Arrivals.addAll, List.foldlM_append, ha]
      simp
    have hbefore : Kept (addedTo receivedAt call.1 calls) ((a call.1).getD .empty) := by
      have hproject := hkept call.1
      cases hp : a call.1 with
      | none =>
        rw [hp, KeptOf] at hproject
        rw [hproject]
        exact kept_empty
      | some p =>
        rw [hp] at hproject
        exact hproject.1
    rw [hall, Arrivals.add]
    split
    case isTrue hnone =>
      refine ⟨a, rfl, fun project => ?_⟩
      have hbatches : batchArrivals receivedAt call.2 = [] := by
        rw [List.length_eq_zero_iff.1 hnone]
        rfl
      rw [hadded, hbatches, ite_self, List.append_nil]
      exact hkept project
    case isFalse =>
      have hle := length_addedTo_le receivedAt call.1 calls
      have hcall : (addedTo receivedAt call.1 calls).length + (batchArrivals receivedAt call.2).length < turns := by
        omega
      obtain ⟨p, hp, hkept'⟩ := hbefore.addBatches receivedAt call.2 hcall
      refine ⟨Function.update a call.1 (some p), by rw [hp, Option.map_some], fun project => ?_⟩
      rw [hadded]
      by_cases hproject : call.1 = project
      · subst hproject
        have hnonneg := @bytes_nonneg _ receivedAt call.1 (calls ++ [call])
        rw [hadded, if_pos rfl] at hnonneg
        rw [Function.update_self, if_pos rfl]
        exact ⟨hkept', hkept'.kept ▸ newestKept_recent hnonneg⟩
      · rw [Function.update_of_ne (Ne.symm hproject), if_neg hproject, List.append_nil]
        exact hkept project

/-- A Log of one Service with so long a message. -/
def sampleLog (length : ℕ) : Log Unit :=
  ⟨0, [], List.replicate length 104, [97], [], [], [], ⟨∅, ∅, ∅, ∅⟩⟩

private def sampleArrival (length : ℕ) : Arrival Unit := ⟨sampleLog length, 0, length + 1⟩

/-- Some Logs of a Service of one Project, and some of another's, each of one size. -/
private def sampleCalls (n length n' length' : ℕ) : List (ℕ × List (LogBatch Unit)) :=
  [(1, [⟨7, List.replicate n (sampleLog length)⟩]), (2, [⟨8, List.replicate n' (sampleLog length')⟩])]

/-- A sample batch's arrivals are its Logs. -/
private theorem arrivals_sample (id n length : ℕ) :
    (⟨id, List.replicate n (sampleLog length)⟩ : LogBatch Unit).arrivals (fun _ => 0) =
      List.replicate n (sampleArrival length) := by
  have hsize : Normalise.size (sampleLog length) = length + 1 := by
    simp [Normalise.size, sampleLog]
  rw [LogBatch.arrivals, List.map_replicate, hsize]
  rfl

/-- The sample calls add for a Project what was called for it. -/
private theorem addedTo_sample (n length n' length' : ℕ) :
    addedTo (fun _ => 0) 1 (sampleCalls n length n' length') = List.replicate n (sampleArrival length) ∧
      addedTo (fun _ => 0) 2 (sampleCalls n length n' length') = List.replicate n' (sampleArrival length') ∧
      logCount (fun _ => 0) (sampleCalls n length n' length') = n + n' := by
  refine ⟨?_, ?_, ?_⟩ <;> simp [addedTo, logCount, sampleCalls, batchArrivals, arrivals_sample]

/-- No arrivals go where there are as few as allowed. -/
private theorem newestOfEach_replicate {n : ℕ} (a : Arrival Unit) (h : n ≤ arrivalsPerService) :
    newestOfEach (List.replicate n a) = List.replicate n a := by
  apply newestOfEach_eq_self
  intro service
  exact (List.length_filter_le _ _).trans (by rwa [List.length_replicate])

/-- As many samples take as many times the bytes of one. -/
private theorem sum_replicate_sample (n length : ℕ) :
    ((List.replicate n (sampleArrival length)).map Arrival.bytes).sum = n * (length + 1) := by
  simp [sampleArrival]

/-- Of 101 Logs of a Service 100 are kept, and of five of 1 MiB each four are. -/
theorem arrivals_kept_sample : ∃ a : Arrivals Unit,
    Arrivals.addAll 107 (fun _ => 0) (sampleCalls 101 2 5 (2 ^ 20 - 1)) = some a ∧
      (∃ p, a 1 = some p ∧ p.values = List.replicate 100 (sampleArrival 2)) ∧
      ∃ p, a 2 = some p ∧ p.values = List.replicate 4 (sampleArrival (2 ^ 20 - 1)) := by
  obtain ⟨hone, htwo, hcount⟩ := addedTo_sample 101 2 5 (2 ^ 20 - 1)
  obtain ⟨a, ha, hkept⟩ := arrivals_kept (fun _ => 0) (sampleCalls 101 2 5 (2 ^ 20 - 1))
    (show logCount (fun _ => 0) (sampleCalls 101 2 5 (2 ^ 20 - 1)) < 107 by omega)
  have hkeptOne := hkept 1
  have hkeptTwo := hkept 2
  rw [hone] at hkeptOne
  rw [htwo] at hkeptTwo
  refine ⟨a, ha, ?_, ?_⟩
  · cases hp : a 1 with
    | none => simp [hp, KeptOf] at hkeptOne
    | some p =>
      rw [hp] at hkeptOne
      obtain ⟨-, new, hnew, hwithin, hvalues⟩ := hkeptOne
      have hfits : List.replicate 101 (sampleArrival 2) <:+ new := by
        refine (suffix_withinBytes List.suffix_rfl ?_).trans hwithin
        rw [sum_replicate_sample]
        decide
      refine ⟨p, rfl, ?_⟩
      rw [hvalues, hnew.eq_of_length_le hfits.length_le]
      have hfull : (ofService (sampleArrival 2).service (List.replicate 100 (sampleArrival 2))).length =
          arrivalsPerService := by
        rw [ofService, List.filter_replicate_of_pos (by simp), List.length_replicate]
        rfl
      rw [List.replicate_succ, newestOfEach_cons, if_neg (by omega)]
      exact newestOfEach_replicate _ le_rfl
  · cases hp : a 2 with
    | none => simp [hp, KeptOf] at hkeptTwo
    | some p =>
      rw [hp] at hkeptTwo
      obtain ⟨hkept', new, hnew, hwithin, hvalues⟩ := hkeptTwo
      obtain ⟨hlength, hnew⟩ := List.suffix_replicate_iff.1 hnew
      have hfour : List.replicate 4 (sampleArrival (2 ^ 20 - 1)) <:+ new := by
        refine (suffix_withinBytes (List.suffix_cons _ _) ?_).trans hwithin
        rw [sum_replicate_sample]
        decide
      have hatLeast := hfour.length_le
      rw [List.length_replicate] at hatLeast
      have hall : p.values = List.replicate new.length (sampleArrival (2 ^ 20 - 1)) := by
        rw [hvalues, hnew, List.length_replicate]
        exact newestOfEach_replicate _ (hlength.trans (by decide))
      have htotal := hkept'.total
      rw [hkept'.sum, ← Function.comp_def Arrival.bytes, ← List.map_map, ← ProjectArrivals.values, hall,
        sum_replicate_sample, arrivalsBytes] at htotal
      refine ⟨p, rfl, ?_⟩
      rw [hall, show new.length = 4 by omega]

end Runs

end SolidTrace.LogTransform
