import Mathlib.Data.List.Nodup
import SolidTrace.Notifications.OutcomeRecorded

/-!
# A group's messages go in order

Each group of a Monitor is a chain for each Integration. Its rows go one at a time, oldest first, and the
chain stops at the first that fails. While an Integration has one tick at a time, a row that may still go
comes after every row of its chain that has gone: through retries, rows given up and rows that a killed
tick left in processing.
-/

namespace SolidTrace.Notifications

/-- A chain: an Integration, a Monitor and one of its groups. -/
abbrev ChainKey := ID × ID × String

/-- The chain of a Monitor row. -/
def Notification.chainKey (row : Notification) : Option ChainKey :=
  match row.subject with
  | .issue _ => none
  | .monitor id group _ => some (row.integration, id, group)

/-- The Monitor row that a call of the provider sends, if it is one that the provider takes. -/
def System.sends (s : System) : System.Action → Option ID
  | .perform tick .delivered =>
    match s.ticks[tick]? with
    | some ⟨_, .deliverMonitorMessage id _ :: _⟩ => some id
    | _ => none
  | _ => none

/-- The outbox with what is not stored: every row as it was written, and the Monitor rows sent, in the
order they went. -/
structure Outbox where
  system : System
  written : List Notification
  sent : List ID

namespace Outbox

def init : Outbox := ⟨.init, [], []⟩

/-- The rows that an action writes, of those there are after it. -/
def newRows (s t : System) : System.Action → List Notification
  | .record _ _ _ => t.rows.drop s.rows.length
  | .monitorChanges _ _ _ => t.rows.drop s.rows.length
  | _ => []

def step (o : Outbox) (a : System.Action) : Option Outbox := do
  let t ← o.system.step a
  return ⟨t, o.written ++ newRows o.system t a, o.sent ++ (o.system.sends a).toList⟩

/-- An Integration's tick starts when no other of its ticks runs. -/
def OneTick (o : Outbox) : System.Action → Prop
  | .startTick integration => ∀ tick ∈ o.system.ticks, tick.integration ≠ integration
  | _ => True

/-- The row of an ID was written to a chain. -/
def InChain (o : Outbox) (key : ChainKey) (id : ID) : Prop :=
  ∃ row ∈ o.written, row.id = id ∧ row.chainKey = some key

/-- No row of a chain goes after a later one, and none goes twice. -/
def InOrder (o : Outbox) : Prop :=
  o.sent.Pairwise fun first second =>
    ∀ key, o.InChain key first → o.InChain key second → first < second

/-- A row of a chain of which a later one, or the row itself, has gone is not picked up again. -/
def NonePassed (o : Outbox) : Prop :=
  ∀ key, ∀ id ∈ o.sent, o.InChain key id → ∀ row ∈ o.system.rows, row.chainKey = some key →
    row.id ≤ id → row.deliverable o.system.now = false

end Outbox

section Shape

variable (o : Outbox) (integration : ID)

/-- Some rows were written for an Integration. -/
def OfIntegration (ids : List ID) : Prop :=
  ∀ id ∈ ids, ∃ row ∈ o.written, row.id = id ∧ row.integration = integration

/-- A chain's rows that a tick is to send, in order. Any row of the chain left out is given up, or was
written after them. -/
structure ChainLeft (key : ChainKey) (ids : List ID) : Prop where
  increasing : ids.Pairwise (· < ·)
  inChain : ∀ id ∈ ids, o.InChain key id
  others : ∀ row ∈ o.system.rows, row.chainKey = some key → row.id ∉ ids →
    row.deliverable o.system.now = false ∨ ∀ id ∈ ids, id < row.id

/-- The rows that a tick has picked up. Any other Monitor row of the Integration is given up, or was
written after them. -/
structure PickedUp (ids : List ID) : Prop where
  ofIntegration : OfIntegration o integration ids
  others : ∀ row ∈ o.system.rows, ∀ key, row.chainKey = some key → key.1 = integration →
    row.id ∉ ids → row.deliverable o.system.now = false ∨ ∀ id ∈ ids, id < row.id

/-- Some rows are about Issues. -/
def AboutIssues (ids : List ID) : Prop :=
  ∀ id ∈ ids, ∃ row ∈ o.written, row.id = id ∧ row.integration = integration ∧ row.chainKey = none

/-- An operation on rows about Issues. -/
def IssueOp : Op → Prop
  | .loadIssueRows ids => OfIntegration o integration ids
  | .updateCounters ids => AboutIssues o integration ids
  | .updateAll ids _ _ => AboutIssues o integration ids
  | .deliverMessage ids => AboutIssues o integration ids
  | _ => False

/-- The chains that a tick has yet to start. -/
inductive Chains : List ChainKey → List Op → Prop
  | nil : Chains [] []
  | cons {key : ChainKey} {ids : List ID} {keys : List ChainKey} {ops : List Op}
      (hkey : key ∉ keys) (hown : key.1 = integration) (h : ChainLeft o key ids)
      (hrest : Chains keys ops) : Chains (key :: keys) (.chain ids :: ops)

/-- How a tick stands: what it has yet to do. -/
inductive TickOps : List Op → Prop
  | pluck : TickOps [.pluck]
  | found {ids : List ID} (h : PickedUp o integration ids) : TickOps [.findIntegration ids]
  | window {ids : List ID} (h : PickedUp o integration ids) : TickOps [.checkWindow ids]
  | skipping {ids : List ID} {error : Option String} (h : OfIntegration o integration ids) :
      TickOps [.updateAll ids .skipped error]
  | issues {ops : List Op} {ids : List ID} (hops : ∀ op ∈ ops, IssueOp o integration op)
      (h : PickedUp o integration ids) : TickOps (ops ++ [.loadMonitorRows ids])
  | counting {key : ChainKey} {id : ID} {rest : List ID} {keys : List ChainKey} {ops : List Op}
      (hkey : key ∉ keys) (hown : key.1 = integration) (h : ChainLeft o key (id :: rest))
      (hrest : Chains o integration keys ops) :
      TickOps (.updateCounters [id] :: .updateAll [id] .processing none ::
        .deliverMonitorMessage id rest :: ops)
  | starting {key : ChainKey} {id : ID} {rest : List ID} {keys : List ChainKey} {ops : List Op}
      (hkey : key ∉ keys) (hown : key.1 = integration) (h : ChainLeft o key (id :: rest))
      (hrest : Chains o integration keys ops) :
      TickOps (.updateAll [id] .processing none :: .deliverMonitorMessage id rest :: ops)
  | delivering {key : ChainKey} {id : ID} {rest : List ID} {keys : List ChainKey} {ops : List Op}
      (hkey : key ∉ keys) (hown : key.1 = integration) (h : ChainLeft o key (id :: rest))
      (hstarted : ∀ row ∈ o.system.rows, row.chainKey = some key → row.id = id →
        row.deliverable o.system.now = false)
      (hrest : Chains o integration keys ops) : TickOps (.deliverMonitorMessage id rest :: ops)
  | settling {id : ID} {status : Status} {error : Option String} {keys : List ChainKey}
      {ops : List Op} (hstatus : status = .sent ∨ status = .skipped)
      (hid : OfIntegration o integration [id]) (hrest : Chains o integration keys ops) :
      TickOps (.updateAll [id] status error :: ops)
  | failing {key : ChainKey} {id : ID} {error : Option String} {keys : List ChainKey} {ops : List Op}
      (hkey : key ∉ keys) (hown : key.1 = integration) (hid : o.InChain key id)
      (hrest : Chains o integration keys ops) : TickOps (.updateAll [id] .failed error :: ops)
  | chains {keys : List ChainKey} {ops : List Op} (h : Chains o integration keys ops) : TickOps ops

end Shape

/-- The rows that an operation may yet send, or leave to be picked up again. -/
def Op.planned : Op → List ID
  | .findIntegration ids => ids
  | .checkWindow ids => ids
  | .loadMonitorRows ids => ids
  | .chain ids => ids
  | .deliverMonitorMessage id rest => id :: rest
  | .updateAll ids .failed _ => ids
  | _ => []

namespace Outbox

/-- A row may still go: a tick is to send it, or one picks it up. -/
def MayGo (o : Outbox) (id : ID) : Prop :=
  (∃ row ∈ o.system.rows, row.id = id ∧ row.deliverable o.system.now = true) ∨
    ∃ tick ∈ o.system.ticks, ∃ op ∈ tick.ops, id ∈ op.planned

structure Inv (o : Outbox) : Prop where
  written : o.written.Pairwise (·.id < ·.id)
  bounded : ∀ row ∈ o.written, row.id < o.system.nextID
  rowsWritten : ∀ row ∈ o.system.rows, ∃ first ∈ o.written, first.id = row.id ∧
    first.integration = row.integration ∧ first.subject = row.subject
  rowsInOrder : o.system.rows.Pairwise (·.id < ·.id)
  created : ∀ row ∈ o.system.rows, row.createdAt ≤ o.system.now
  kept : ∀ row ∈ o.system.rows, ∀ id group kept, row.subject = .monitor id group kept → kept = true
  oneTick : (o.system.ticks.map Tick.integration).Nodup
  ticks : ∀ tick ∈ o.system.ticks, TickOps o tick.integration tick.ops
  sentWritten : ∀ id ∈ o.sent, id < o.system.nextID
  later : ∀ key, ∀ id ∈ o.sent, o.InChain key id → ∀ next, o.MayGo next → o.InChain key next → id < next
  inOrder : o.InOrder

variable {o o' : Outbox} {key : ChainKey} {id : ID}

/-- A row is known by its id among those written. -/
theorem Inv.row_of_id (hinv : o.Inv) {first second : Notification} (hfirst : first ∈ o.written)
    (hsecond : second ∈ o.written) (hid : first.id = second.id) : first = second := by
  have hnodup : (o.written.map Notification.id).Nodup :=
    List.pairwise_map.mpr (hinv.written.imp fun h => Nat.ne_of_lt h)
  exact List.inj_on_of_nodup_map hnodup hfirst hsecond hid

/-- Rows of one integration and one subject are in one chain. -/
theorem chainKey_congr {first row : Notification} (hintegration : first.integration = row.integration)
    (hsubject : first.subject = row.subject) : first.chainKey = row.chainKey := by
  unfold Notification.chainKey
  rw [hintegration, hsubject]

/-- A row that is in a chain has the chain's key. -/
theorem Inv.chainKey_of_inChain (hinv : o.Inv) {row : Notification} (hrow : row ∈ o.system.rows)
    (h : o.InChain key row.id) : row.chainKey = some key := by
  obtain ⟨written, hwritten, hid, hkey⟩ := h
  obtain ⟨first, hfirst, hid', hintegration, hsubject⟩ := hinv.rowsWritten row hrow
  obtain rfl := hinv.row_of_id hwritten hfirst (hid.trans hid'.symm)
  rw [← chainKey_congr hintegration hsubject]
  exact hkey

/-- A row with a chain's key is in the chain. -/
theorem Inv.inChain_of_chainKey (hinv : o.Inv) {row : Notification} (hrow : row ∈ o.system.rows)
    (h : row.chainKey = some key) : o.InChain key row.id := by
  obtain ⟨first, hfirst, hid, hintegration, hsubject⟩ := hinv.rowsWritten row hrow
  exact ⟨first, hfirst, hid, (chainKey_congr hintegration hsubject).trans h⟩

/-- A row is of one chain. -/
theorem Inv.inChain_inj (hinv : o.Inv) {other : ChainKey} (h : o.InChain key id)
    (hother : o.InChain other id) : key = other := by
  obtain ⟨row, hrow, hid, hkey⟩ := h
  obtain ⟨row', hrow', hid', hkey'⟩ := hother
  obtain rfl := hinv.row_of_id hrow hrow' (hid.trans hid'.symm)
  exact Option.some.inj (hkey.symm.trans hkey')

/-- A chain has one integration. -/
theorem integration_of_chainKey {row : Notification} (h : row.chainKey = some key) :
    row.integration = key.1 := by
  unfold Notification.chainKey at h
  split at h
  · simp at h
  · rw [← Option.some.inj h]

/-- A chain's rows are its Integration's. -/
theorem Inv.integration_of_inChain (hinv : o.Inv) {integration : ID} {ids : List ID}
    (hids : OfIntegration o integration ids) (hid : id ∈ ids) (hchain : o.InChain key id) :
    key.1 = integration := by
  obtain ⟨row, hrow, hrowId, hintegration⟩ := hids id hid
  obtain ⟨row', hrow', hrowId', hkey⟩ := hchain
  obtain rfl := hinv.row_of_id hrow hrow' (hrowId.trans hrowId'.symm)
  rw [← integration_of_chainKey hkey, hintegration]

/-- A row of a Monitor is none of those about issues. -/
theorem Inv.not_aboutIssues (hinv : o.Inv) {integration : ID} {ids : List ID}
    (hids : AboutIssues o integration ids) (hchain : o.InChain key id) : id ∉ ids := by
  intro hid
  obtain ⟨row, hrow, hrowId, -, hnone⟩ := hids id hid
  obtain ⟨row', hrow', hrowId', hkey⟩ := hchain
  obtain rfl := hinv.row_of_id hrow hrow' (hrowId.trans hrowId'.symm)
  rw [hnone] at hkey
  cases hkey

/-- Every row of a chain was written before the next id. -/
theorem Inv.lt_nextID (hinv : o.Inv) (h : o.InChain key id) : id < o.system.nextID := by
  obtain ⟨row, hrow, rfl, -⟩ := h
  exact hinv.bounded row hrow

/-- The rows of some chains that may be picked up are ones that could be before, or new. -/
structure Tame (o o' : Outbox) (keys : ChainKey → Prop) : Prop where
  written : ∀ row ∈ o.written, row ∈ o'.written
  rows : ∀ row ∈ o'.system.rows, ∀ key, row.chainKey = some key → keys key →
    row.deliverable o'.system.now = false ∨
      (∃ before ∈ o.system.rows, before.id = row.id ∧ before.chainKey = some key ∧
        before.deliverable o.system.now = true) ∨
      o.system.nextID ≤ row.id

variable {keys : ChainKey → Prop} {integration : ID}

/-- Rows tame in some chains are so in fewer. -/
theorem Tame.mono (h : Tame o o' keys) {fewer : ChainKey → Prop} (hfewer : ∀ key, fewer key → keys key) :
    Tame o o' fewer :=
  ⟨h.written, fun row hrow key hkey hin => h.rows row hrow key hkey (hfewer key hin)⟩

/-- A row stays in its chain. -/
theorem Tame.inChain (h : Tame o o' keys) (hid : o.InChain key id) : o'.InChain key id := by
  obtain ⟨row, hrow, hrowId, hkey⟩ := hid
  exact ⟨row, h.written row hrow, hrowId, hkey⟩

/-- Rows of an integration stay its. -/
theorem Tame.ofIntegration (h : Tame o o' keys) {ids : List ID}
    (hids : OfIntegration o integration ids) : OfIntegration o' integration ids := by
  intro id hid
  obtain ⟨row, hrow, hrowId, hintegration⟩ := hids id hid
  exact ⟨row, h.written row hrow, hrowId, hintegration⟩

/-- Rows about issues stay about issues. -/
theorem Tame.aboutIssues (h : Tame o o' keys) {ids : List ID}
    (hids : AboutIssues o integration ids) : AboutIssues o' integration ids := by
  intro id hid
  obtain ⟨row, hrow, hrowId, hintegration, hnone⟩ := hids id hid
  exact ⟨row, h.written row hrow, hrowId, hintegration, hnone⟩

/-- What is left of a chain stays left, as no row of the chain is written meanwhile. -/
theorem Tame.chainLeft (h : Tame o o' keys) (hinv : o.Inv) (hkey : keys key) {ids : List ID}
    (hleft : ChainLeft o key ids) : ChainLeft o' key ids := by
  refine ⟨hleft.increasing, fun id hid => h.inChain (hleft.inChain id hid), ?_⟩
  intro row hrow hrowKey hnot
  cases h.rows row hrow key hrowKey hkey with
  | inl hdone => exact Or.inl hdone
  | inr hold =>
    cases hold with
    | inl hbefore =>
      obtain ⟨before, hbefore, hid, hbeforeKey, hdeliverable⟩ := hbefore
      have hothers := hleft.others before hbefore hbeforeKey (hid ▸ hnot)
      rw [hdeliverable, hid] at hothers
      exact Or.inr (hothers.resolve_left Bool.noConfusion)
    | inr hnew =>
      right
      intro id hid
      exact Nat.lt_of_lt_of_le (hinv.lt_nextID (hleft.inChain id hid)) hnew

/-- What was picked up of an integration stays picked up. -/
theorem Tame.pickedUp (h : Tame o o' keys) (hinv : o.Inv)
    (hkeys : ∀ key : ChainKey, key.1 = integration → keys key) {ids : List ID}
    (hpicked : PickedUp o integration ids) : PickedUp o' integration ids := by
  refine ⟨h.ofIntegration hpicked.ofIntegration, ?_⟩
  intro row hrow key hkey hown hnot
  cases h.rows row hrow key hkey (hkeys key hown) with
  | inl hdone => exact Or.inl hdone
  | inr hold =>
    cases hold with
    | inl hbefore =>
      obtain ⟨before, hbefore, hid, hbeforeKey, hdeliverable⟩ := hbefore
      have hothers := hpicked.others before hbefore key hbeforeKey hown (hid ▸ hnot)
      rw [hdeliverable, hid] at hothers
      exact Or.inr (hothers.resolve_left Bool.noConfusion)
    | inr hnew =>
      right
      intro id hid
      obtain ⟨row, hrow, rfl, -⟩ := hpicked.ofIntegration id hid
      exact Nat.lt_of_lt_of_le (hinv.bounded row hrow) hnew

/-- The chains of a tick stay planned, as none of their rows is written meanwhile. -/
theorem Tame.chains (h : Tame o o' keys) (hinv : o.Inv) {own : List ChainKey} {ops : List Op}
    (hchains : Chains o integration own ops) (hkeys : ∀ key ∈ own, key.1 = integration → keys key) :
    Chains o' integration own ops := by
  induction hchains with
  | nil => exact .nil
  | cons hkey hown hleft hrest ih =>
    refine .cons hkey hown (h.chainLeft hinv (hkeys _ List.mem_cons_self hown) hleft) ?_
    exact ih fun key hmem => hkeys key (List.mem_cons_of_mem _ hmem)

/-- An operation about issues stays one. -/
theorem Tame.issueOp (h : Tame o o' keys) {op : Op} (hop : IssueOp o integration op) :
    IssueOp o' integration op := by
  cases op with
  | loadIssueRows ids => exact h.ofIntegration hop
  | updateCounters ids => exact h.aboutIssues hop
  | updateAll ids status error => exact h.aboutIssues hop
  | deliverMessage ids => exact h.aboutIssues hop
  | _ => exact hop.elim

/-- A row that has started stays so. -/
theorem Tame.started (h : Tame o o' keys) (hinv : o.Inv) (hkey : keys key)
    (hid : o.InChain key id) (hstarted : ∀ row ∈ o.system.rows, row.chainKey = some key →
      row.id = id → row.deliverable o.system.now = false) :
    ∀ row ∈ o'.system.rows, row.chainKey = some key → row.id = id →
      row.deliverable o'.system.now = false := by
  intro row hrow hrowKey hrowId
  cases h.rows row hrow key hrowKey hkey with
  | inl hdone => exact hdone
  | inr hold =>
    cases hold with
    | inl hbefore =>
      obtain ⟨before, hbefore, hbeforeId, hbeforeKey, hdeliverable⟩ := hbefore
      rw [hstarted before hbefore hbeforeKey (hbeforeId.trans hrowId)] at hdeliverable
      exact Bool.noConfusion hdeliverable
    | inr hnew =>
      rw [hrowId] at hnew
      exact absurd hnew (Nat.not_le_of_lt (hinv.lt_nextID hid))

/-- A tick stands as it did where its Integration's rows are tame. -/
theorem Tame.tickOps (h : Tame o o' fun key => key.1 = integration) (hinv : o.Inv) {ops : List Op}
    (hops : TickOps o integration ops) : TickOps o' integration ops := by
  have hown : ∀ key : ChainKey, key.1 = integration → key.1 = integration := fun _ => id
  cases hops with
  | pluck => exact .pluck
  | found hpicked => exact .found (h.pickedUp hinv hown hpicked)
  | window hpicked => exact .window (h.pickedUp hinv hown hpicked)
  | skipping hids => exact .skipping (h.ofIntegration hids)
  | issues hissues hpicked =>
    exact .issues (fun op hop => h.issueOp (hissues op hop)) (h.pickedUp hinv hown hpicked)
  | counting hkey hkeyOwn hleft hrest =>
    exact .counting hkey hkeyOwn (h.chainLeft hinv hkeyOwn hleft)
      (h.chains hinv hrest fun key _ => hown key)
  | starting hkey hkeyOwn hleft hrest =>
    exact .starting hkey hkeyOwn (h.chainLeft hinv hkeyOwn hleft)
      (h.chains hinv hrest fun key _ => hown key)
  | delivering hkey hkeyOwn hleft hstarted hrest =>
    exact .delivering hkey hkeyOwn (h.chainLeft hinv hkeyOwn hleft)
      (h.started hinv hkeyOwn (hleft.inChain _ List.mem_cons_self) hstarted)
      (h.chains hinv hrest fun key _ => hown key)
  | settling hstatus hids hrest =>
    exact .settling hstatus (h.ofIntegration hids) (h.chains hinv hrest fun key _ => hown key)
  | failing hkey hkeyOwn hid hrest =>
    exact .failing hkey hkeyOwn (h.inChain hid) (h.chains hinv hrest fun key _ => hown key)
  | chains hchains => exact .chains (h.chains hinv hchains fun key _ => hown key)

end Outbox

section Rows

namespace Notification

/-- A Monitor row is picked up by its status and age, whatever its attempts. -/
theorem deliverable_attempts {row : Notification} {key : ChainKey} (hkey : row.chainKey = some key)
    (attempts : ℕ) (now : ℤ) :
    ({ row with attempts := attempts } : Notification).deliverable now = row.deliverable now := by
  unfold Notification.chainKey at hkey
  unfold Notification.deliverable
  cases hsubject : row.subject with
  | issue id => simp [hsubject] at hkey
  | monitor id group kept => cases row.status <;> rfl

/-- A row sent, skipped or in processing is not picked up. -/
theorem deliverable_mark {status : Status}
    (hstatus : status = .sent ∨ status = .skipped ∨ status = .processing) (row : Notification)
    (error : Option String) (now later : ℤ) :
    (row.mark now status error).deliverable later = false := by
  obtain rfl | rfl | rfl := hstatus <;> rfl

/-- A row is not picked up again as time goes on. -/
theorem deliverable_later {row : Notification} {now later : ℤ} (hle : now ≤ later)
    (h : row.deliverable later = true) : row.deliverable now = true := by
  unfold Notification.deliverable at h ⊢
  split at h <;> simp_all
  omega

end Notification

end Rows

namespace Outbox

variable {o o' : Outbox} {key : ChainKey} {id : ID} {keys : ChainKey → Prop} {integration : ID}

/-- What a tick does to rows is tame but for the failure it records. -/
theorem Inv.tame_perform (hinv : o.Inv) {outcome : Outcome} {op : Op}
    (hop : ∀ ids status error, op = .updateAll ids status error →
      (status = .sent ∨ status = .skipped ∨ status = .processing) ∨
        ∀ key, keys key → ∀ id ∈ ids, ¬ o.InChain key id)
    (hwritten : o'.written = o.written)
    (hrows : o'.system.rows = (o.system.perform integration outcome op).1)
    (hnow : o'.system.now = o.system.now) : Tame o o' keys := by
  have hsame {row : Notification} (hrow : row ∈ o.system.rows) {key : ChainKey}
      (hkey : row.chainKey = some key) : row.deliverable o'.system.now = false ∨
        (∃ before ∈ o.system.rows, before.id = row.id ∧ before.chainKey = some key ∧
          before.deliverable o.system.now = true) ∨ o.system.nextID ≤ row.id := by
    rw [hnow]
    cases hdeliverable : row.deliverable o.system.now with
    | false => exact Or.inl rfl
    | true => exact Or.inr (Or.inl ⟨row, hrow, rfl, hkey, hdeliverable⟩)
  refine ⟨fun row hrow => hwritten ▸ hrow, ?_⟩
  intro row hrow key hkey hkeys
  rw [hrows] at hrow
  by_cases hcounters : ∃ ids, op = .updateCounters ids
  · obtain ⟨ids, rfl⟩ := hcounters
    obtain ⟨old, hold, rfl⟩ := List.mem_map.mp hrow
    split at hkey
    · have holdKey : old.chainKey = some key := hkey
      rename_i hcounted
      rw [if_pos hcounted, Notification.deliverable_attempts holdKey]
      exact hsame hold holdKey
    · rename_i hcounted
      rw [if_neg hcounted]
      exact hsame hold hkey
  · by_cases hall : ∃ ids status error, op = .updateAll ids status error
    · obtain ⟨ids, status, error, rfl⟩ := hall
      obtain ⟨old, hold, rfl⟩ := List.mem_map.mp hrow
      split at hkey
      · rename_i hmarked
        rw [if_pos hmarked]
        cases hop ids status error rfl with
        | inl hstatus => exact Or.inl (Notification.deliverable_mark hstatus old error _ _)
        | inr hother =>
          have holdKey : old.chainKey = some key := hkey
          have hmem : old.id ∈ ids := by simpa using hmarked
          exact absurd (hinv.inChain_of_chainKey hold holdKey) (hother key hkeys old.id hmem)
      · rename_i hmarked
        rw [if_neg hmarked]
        exact hsame hold hkey
    · push Not at hcounters hall
      rw [System.perform_rows hcounters hall] at hrow
      exact hsame hrow hkey

/-- Only rows about Issues change in an operation on them. -/
theorem Inv.tame_issueOp (hinv : o.Inv) {outcome : Outcome} {op : Op}
    (hop : IssueOp o integration op) (hwritten : o'.written = o.written)
    (hrows : o'.system.rows = (o.system.perform integration outcome op).1)
    (hnow : o'.system.now = o.system.now) : Tame o o' keys := by
  apply hinv.tame_perform _ hwritten hrows hnow
  rintro ids status error rfl
  right
  intro key hkey id hid hchain
  exact hinv.not_aboutIssues hop hchain hid

/-- Issue rows that are among those written for an Integration are about its Issues. -/
theorem Inv.aboutIssues (hinv : o.Inv) {ids : List ID} (hids : OfIntegration o integration ids)
    {rows : List Notification} (hrows : ∀ row ∈ rows, row ∈ o.system.rows ∧ row.id ∈ ids ∧
      row.isIssue = true) : AboutIssues o integration (rows.map Notification.id) := by
  intro id hid
  obtain ⟨row, hrow, rfl⟩ := List.mem_map.mp hid
  obtain ⟨hstored, hmem, hissue⟩ := hrows row hrow
  obtain ⟨written, hwritten, hwrittenId, hintegration⟩ := hids row.id hmem
  obtain ⟨first, hfirst, hfirstId, -, hsubject⟩ := hinv.rowsWritten row hstored
  obtain rfl := hinv.row_of_id hwritten hfirst (hwrittenId.trans hfirstId.symm)
  refine ⟨written, hwritten, hwrittenId, hintegration, ?_⟩
  unfold Notification.chainKey
  rw [hsubject]
  unfold Notification.isIssue at hissue
  cases hrowSubject : row.subject with
  | issue id => rfl
  | monitor id group kept => simp [hrowSubject] at hissue

/-- Marking rows about issues is about issues. -/
theorem issueOp_markRows {ids : List ID} (hids : AboutIssues o integration ids) (status : Status)
    (error : Option String) : ∀ op ∈ markRows ids status error, IssueOp o integration op := by
  intro op hop
  unfold markRows at hop
  split at hop
  · obtain rfl | rfl : op = .updateCounters ids ∨ op = .updateAll ids status error := by
      simpa using hop
    · exact hids
    · exact hids
  · rw [List.mem_singleton.mp hop]
    exact hids

/-- What follows a message about issues is about issues. -/
theorem issueOp_messageOutcome {ids : List ID} (hids : AboutIssues o integration ids)
    (outcome : Outcome) : ∀ op ∈ System.messageOutcome ids outcome, IssueOp o integration op := by
  cases outcome <;> exact issueOp_markRows hids _ _

/-- Delivering rows about issues is about issues. -/
theorem Inv.issueOp_deliverIssueRows (hinv : o.Inv) {ids : List ID}
    (hids : OfIntegration o integration ids) :
    ∀ op ∈ o.system.deliverIssueRows ids, IssueOp o integration op := by
  have habout {rows : List Notification}
      (hrows : rows ⊆ o.system.rows.filter fun row => ids.contains row.id && row.isIssue) :
      AboutIssues o integration (rows.map Notification.id) := by
    apply hinv.aboutIssues hids
    intro row hrow
    have hfiltered := hrows hrow
    simp only [List.mem_filter, Bool.and_eq_true, List.contains_eq_mem, decide_eq_true_eq] at hfiltered
    exact hfiltered
  intro op hop
  unfold System.deliverIssueRows at hop
  rw [List.mem_append, List.mem_append] at hop
  obtain (hgone | hstarted) | hmessage := hop
  · split at hgone
    · simp at hgone
    · exact issueOp_markRows (habout (List.filter_subset_self _)) _ _ op hgone
  · exact issueOp_markRows (habout (List.filter_subset_self _)) _ _ op hstarted
  · obtain ⟨kind, -, hkind⟩ := List.mem_flatMap.mp hmessage
    split at hkind
    · rw [List.mem_singleton.mp hkind]
      exact habout (List.Subset.trans (List.filter_subset_self _) (List.filter_subset_self _))
    · obtain ⟨row, hrow, rfl⟩ := List.mem_map.mp hkind
      have hsingle : AboutIssues o integration ([row].map Notification.id) := by
        apply habout
        intro other hother
        rw [List.mem_singleton.mp hother]
        exact List.filter_subset_self _ (List.filter_subset_self _ hrow)
      exact hsingle

/-- A Monitor row keeps what its message says, so none is skipped for a Monitor that is gone. -/
theorem Inv.deliverMonitorRows_eq (hinv : o.Inv) (ids : List ID) :
    o.system.deliverMonitorRows ids =
      let rows := o.system.rows.filter fun row => ids.contains row.id && !row.isIssue
      (System.groupsOf rows).map fun group =>
        .chain ((rows.filter (System.inGroup · group)).map Notification.id) := by
  unfold System.deliverMonitorRows
  extract_lets rows missing gone rest
  have hmissing (row : Notification) (hrow : row ∈ rows) : missing row = false := by
    simp only [missing]
    cases hsubject : row.subject with
    | issue id => rfl
    | monitor id group kept =>
      simp [hinv.kept row (List.mem_of_mem_filter hrow) id group kept hsubject]
  have hgone : gone = [] := by
    rw [List.filter_eq_nil_iff]
    intro row hrow
    simp [hmissing row hrow]
  have hrest : rest = rows := by
    rw [List.filter_eq_self]
    intro row hrow
    simp [hmissing row hrow]
  rw [hgone, hrest]
  rfl

/-- A group of a Monitor, of rows that are about Monitors. -/
theorem exists_of_mem_groupsOf {rows : List Notification}
    (hrows : ∀ row ∈ rows, row.isIssue = false) :
    ∀ group ∈ System.groupsOf rows, ∃ id name, group = .monitor id name true := by
  intro group hgroup
  rw [System.groupsOf, mem_foldl_insert] at hgroup
  obtain ⟨row, hrow, rfl⟩ := List.mem_map.mp (hgroup.resolve_left List.not_mem_nil)
  have hissue := hrows row hrow
  unfold Notification.isIssue at hissue
  cases hsubject : row.subject with
  | issue id => simp [hsubject] at hissue
  | monitor id name kept => exact ⟨id, name, rfl⟩

/-- Adding values one after another, each once, repeats none. -/
theorem nodup_foldl_insert {α : Type*} [DecidableEq α] (xs kept : List α) (hkept : kept.Nodup) :
    (xs.foldl (fun kept y => if kept.contains y then kept else kept ++ [y]) kept).Nodup := by
  induction xs generalizing kept with
  | nil => exact hkept
  | cons y ys ih =>
    rw [List.foldl_cons]
    apply ih
    split
    · exact hkept
    · rename_i hnew
      rw [List.contains_eq_mem, decide_eq_true_eq] at hnew
      rw [List.nodup_append]
      refine ⟨hkept, List.nodup_singleton y, ?_⟩
      intro x hx z hz hsame
      rw [List.mem_singleton.mp hz] at hsame
      exact hnew (hsame ▸ hx)

/-- A row is in a chain's group when it has the chain's key. -/
theorem inGroup_iff {row : Notification} {monitor : ID} {name : String}
    (hrow : row.integration = integration) :
    System.inGroup row (.monitor monitor name true) = true ↔
      row.chainKey = some (integration, monitor, name) := by
  unfold System.inGroup Notification.chainKey
  cases hsubject : row.subject with
  | issue id => simp
  | monitor id group kept =>
    simp only [hrow, Bool.and_eq_true, beq_iff_eq, Option.some.injEq, Prod.mk.injEq, true_and]
    exact and_congr eq_comm eq_comm

/-- The chains of the rows that a tick has picked up. -/
theorem Inv.chains_deliverMonitorRows (hinv : o.Inv) {ids : List ID}
    (hpicked : PickedUp o integration ids) :
    ∃ own, Chains o integration own (o.system.deliverMonitorRows ids) := by
  rw [hinv.deliverMonitorRows_eq]
  dsimp only
  set rows := o.system.rows.filter fun row => ids.contains row.id && !row.isIssue with hrowsDef
  have hrows (row : Notification) (hrow : row ∈ rows) :
      row ∈ o.system.rows ∧ row.id ∈ ids ∧ row.isIssue = false := by
    simpa [hrowsDef] using hrow
  have hown (row : Notification) (hrow : row ∈ rows) : row.integration = integration := by
    obtain ⟨hstored, hid, -⟩ := hrows row hrow
    obtain ⟨written, hwritten, hwrittenId, hintegration⟩ := hpicked.ofIntegration row.id hid
    obtain ⟨first, hfirst, hfirstId, hsame, -⟩ := hinv.rowsWritten row hstored
    obtain rfl := hinv.row_of_id hwritten hfirst (hwrittenId.trans hfirstId.symm)
    rw [← hsame, hintegration]
  have hgroups := exists_of_mem_groupsOf fun row hrow => (hrows row hrow).2.2
  have hnodup : (System.groupsOf rows).Nodup := nodup_foldl_insert _ [] List.nodup_nil
  have hleft (monitor : ID) (name : String) : ChainLeft o (integration, monitor, name)
      ((rows.filter (System.inGroup · (.monitor monitor name true))).map Notification.id) := by
    have hmem (id : ID) (hid : id ∈ (rows.filter
        (System.inGroup · (.monitor monitor name true))).map Notification.id) :
        ∃ row ∈ rows, row.id = id ∧ row.chainKey = some (integration, monitor, name) := by
      obtain ⟨row, hrow, rfl⟩ := List.mem_map.mp hid
      obtain ⟨hrow, hgroup⟩ := List.mem_filter.mp hrow
      exact ⟨row, hrow, rfl, (inGroup_iff (hown row hrow)).mp hgroup⟩
    refine ⟨?_, ?_, ?_⟩
    · exact List.pairwise_map.mpr ((hinv.rowsInOrder.filter _).filter _)
    · intro id hid
      obtain ⟨row, hrow, rfl, hkey⟩ := hmem id hid
      exact hinv.inChain_of_chainKey (hrows row hrow).1 hkey
    · intro row hrow hkey hnot
      have hrowOwn : row.integration = integration := integration_of_chainKey hkey
      have hnotPicked : row.id ∉ ids := by
        intro hid
        apply hnot
        apply List.mem_map_of_mem
        refine List.mem_filter.mpr ⟨?_, (inGroup_iff hrowOwn).mpr hkey⟩
        have hissue : row.isIssue = false := by
          unfold Notification.chainKey at hkey
          unfold Notification.isIssue
          cases hsubject : row.subject with
          | issue id => simp [hsubject] at hkey
          | monitor id group kept => rfl
        simp [hrowsDef, hrow, hid, hissue]
      cases hpicked.others row hrow _ hkey rfl hnotPicked with
      | inl hdone => exact Or.inl hdone
      | inr hlater =>
        right
        intro id hid
        obtain ⟨other, hother, rfl, -⟩ := hmem id hid
        exact hlater other.id (hrows other hother).2.1
  suffices h : ∃ own : List ChainKey, (∀ key ∈ own, .monitor key.2.1 key.2.2 true ∈
      System.groupsOf rows) ∧ Chains o integration own ((System.groupsOf rows).map fun group =>
        .chain ((rows.filter (System.inGroup · group)).map Notification.id)) by
    obtain ⟨own, -, hchains⟩ := h
    exact ⟨own, hchains⟩
  generalize System.groupsOf rows = groups at hgroups hnodup
  induction groups with
  | nil => exact ⟨[], by simp, .nil⟩
  | cons group rest ih =>
    rw [List.nodup_cons] at hnodup
    obtain ⟨hfresh, hnodup⟩ := hnodup
    obtain ⟨own, hnames, hchains⟩ := ih (fun g hg => hgroups g (List.mem_cons_of_mem _ hg)) hnodup
    obtain ⟨monitor, name, rfl⟩ := hgroups group List.mem_cons_self
    refine ⟨(integration, monitor, name) :: own, ?_, .cons ?_ rfl (hleft monitor name) hchains⟩
    · intro key hkey
      cases List.mem_cons.mp hkey with
      | inl hfirst =>
        rw [hfirst]
        exact List.mem_cons_self
      | inr hrest => exact List.mem_cons_of_mem _ (hnames key hrest)
    · intro hmem
      exact hfresh (hnames _ hmem)

/-- A row of a chain is one of its integration. -/
theorem ofIntegration_of_inChain (hown : key.1 = integration) (hid : o.InChain key id) :
    OfIntegration o integration [id] := by
  intro other hother
  obtain ⟨row, hrow, hrowId, hkey⟩ := hid
  rw [List.mem_singleton.mp hother]
  exact ⟨row, hrow, hrowId, (integration_of_chainKey hkey).trans hown⟩

/-- The rest of a chain whose first row has started. -/
theorem chainLeft_tail {rest : List ID}
    (h : ChainLeft o key (id :: rest)) (hstarted : ∀ row ∈ o.system.rows, row.chainKey = some key →
      row.id = id → row.deliverable o.system.now = false) : ChainLeft o key rest := by
  refine ⟨(List.pairwise_cons.mp h.increasing).2,
    fun id hid => h.inChain id (List.mem_cons_of_mem _ hid), ?_⟩
  intro row hrow hkey hnot
  by_cases hfirst : row.id = id
  · exact Or.inl (hstarted row hrow hkey hfirst)
  · have hothers := h.others row hrow hkey (by simp [hfirst, hnot])
    exact hothers.imp_right fun hlater id hid => hlater id (List.mem_cons_of_mem _ hid)

/-- The rows that a tick picks up. -/
theorem Inv.pickedUp_pendingFor (hinv : o.Inv) (integration : ID) :
    PickedUp o integration (o.system.pendingFor integration) := by
  constructor
  · intro id hid
    obtain ⟨row, hrow, rfl⟩ := List.mem_map.mp hid
    simp only [List.mem_filter, Bool.and_eq_true, beq_iff_eq, decide_eq_true_eq] at hrow
    obtain ⟨first, hfirst, hfirstId, hintegration, -⟩ := hinv.rowsWritten row hrow.1
    exact ⟨first, hfirst, hfirstId, hintegration.trans hrow.2.1.2⟩
  · intro row hrow key hkey hown hnot
    left
    cases hdeliverable : row.deliverable o.system.now with
    | false => rfl
    | true =>
      have hintegration := (integration_of_chainKey hkey).trans hown
      have hcreated := hinv.created row hrow
      exact absurd (List.mem_map_of_mem (List.mem_filter.mpr
        ⟨hrow, by simp [hdeliverable, hintegration, hcreated]⟩)) hnot

/-- What an operation on rows about Issues becomes. -/
theorem Inv.issueOp_perform (hinv : o.Inv) {op : Op} (hop : IssueOp o integration op)
    (outcome : Outcome) :
    ∀ next ∈ (o.system.perform integration outcome op).2, IssueOp o integration next := by
  cases op with
  | loadIssueRows ids => exact hinv.issueOp_deliverIssueRows hop
  | updateCounters ids => simp [System.perform]
  | updateAll ids status error => simp [System.perform]
  | deliverMessage ids => exact issueOp_messageOutcome hop outcome
  | _ => exact hop.elim

/-- A tick that has plucked its rows looks its Integration up, or is done. -/
theorem Inv.tickOps_pluck (hinv : o.Inv) (htame : Tame o o' fun _ => True) (outcome : Outcome) :
    TickOps o' integration (o.system.perform integration outcome .pluck).2 := by
  simp only [System.perform]
  split
  · exact .chains .nil
  · exact .found (htame.pickedUp hinv (fun _ _ => trivial) (hinv.pickedUp_pendingFor integration))

/-- A tick that has looked its Integration up skips its rows, or checks the window. -/
theorem tickOps_findIntegration {ids : List ID} (hpicked : PickedUp o' integration ids) (outcome : Outcome) :
    TickOps o' integration (o.system.perform integration outcome (.findIntegration ids)).2 := by
  simp only [System.perform]
  split
  · exact .skipping hpicked.ofIntegration
  · exact .skipping hpicked.ofIntegration
  · exact .window hpicked

/-- A tick within the window loads its rows. -/
theorem tickOps_checkWindow {ids : List ID} (hpicked : PickedUp o' integration ids) (outcome : Outcome) :
    TickOps o' integration (o.system.perform integration outcome (.checkWindow ids)).2 := by
  simp only [System.perform]
  split
  · exact .chains .nil
  · apply @TickOps.issues o' integration [.loadIssueRows _] _ _ hpicked
    intro op hop
    rw [List.mem_singleton.mp hop]
    exact hpicked.ofIntegration

/-- What a tick does about Issues comes before it loads its Monitor rows. -/
theorem Inv.tickOps_issues (hinv : o.Inv) {op : Op} {outcome : Outcome} {others : List Op} {ids : List ID}
    (hissues : ∀ next ∈ op :: others, IssueOp o integration next) (hpicked : PickedUp o integration ids)
    (hwritten : o'.written = o.written)
    (hrows : o'.system.rows = (o.system.perform integration outcome op).1)
    (hnow : o'.system.now = o.system.now) :
    TickOps o' integration
      ((o.system.perform integration outcome op).2 ++ (others ++ [.loadMonitorRows ids])) := by
  have hfirst := hissues op List.mem_cons_self
  have htame : Tame o o' fun _ => True := hinv.tame_issueOp hfirst hwritten hrows hnow
  rw [← List.append_assoc]
  apply TickOps.issues _ (htame.pickedUp hinv (fun _ _ => trivial) hpicked)
  intro next hnext
  apply htame.issueOp
  cases List.mem_append.mp hnext with
  | inl hnew => exact hinv.issueOp_perform hfirst outcome next hnew
  | inr hold => exact hissues next (List.mem_cons_of_mem _ hold)

/-- A row that is marked has started. -/
theorem started_updateAll {integration : ID} {outcome : Outcome}
    (hrows : o'.system.rows = (o.system.perform integration outcome (.updateAll [id] .processing none)).1) :
    ∀ row ∈ o'.system.rows, row.chainKey = some key → row.id = id →
      row.deliverable o'.system.now = false := by
  intro row hrow hrowKey hrowId
  rw [hrows] at hrow
  obtain ⟨old, hold, rfl⟩ := List.mem_map.mp hrow
  split at hrowId
  · rename_i hmarked
    rw [if_pos hmarked]
    exact Notification.deliverable_mark (Or.inr (Or.inr rfl)) old none _ _
  · rename_i hmarked
    exact absurd hrowId (by simpa using hmarked)

/-- A tick that has sent a Monitor row's message notes it, and goes on with the chain unless it failed. -/
theorem Inv.tickOps_delivering (hinv : o.Inv) (htame : Tame o o' fun _ => True) {tail : List ID}
    {own : List ChainKey} {ops : List Op} (hkey : key ∉ own) (hown : key.1 = integration)
    (hleft : ChainLeft o key (id :: tail)) (hstarted : ∀ row ∈ o.system.rows, row.chainKey = some key →
      row.id = id → row.deliverable o.system.now = false) (hrest : Chains o integration own ops)
    (outcome : Outcome) :
    TickOps o' integration ((o.system.perform integration outcome (.deliverMonitorMessage id tail)).2 ++ ops) := by
  have hchains := htame.chains hinv hrest fun _ _ _ => trivial
  have hleft' := htame.chainLeft hinv trivial hleft
  have hid := hleft'.inChain id List.mem_cons_self
  have hof := ofIntegration_of_inChain hown hid
  have hnext := chainLeft_tail hleft' (htame.started hinv trivial
    (hleft.inChain id List.mem_cons_self) hstarted)
  cases outcome with
  | delivered => exact .settling (Or.inl rfl) hof (.cons hkey hown hnext hchains)
  | notConfigured message => exact .settling (Or.inr rfl) hof (.cons hkey hown hnext hchains)
  | error message => exact .failing hkey hown hid hchains

/-- A failed row is no obstacle to the chains of other keys. -/
theorem Inv.tickOps_failing (hinv : o.Inv) {error : Option String} {outcome : Outcome} {own : List ChainKey}
    {ops : List Op} (hkey : key ∉ own) (hid : o.InChain key id) (hrest : Chains o integration own ops)
    (hwritten : o'.written = o.written)
    (hrows : o'.system.rows = (o.system.perform integration outcome (.updateAll [id] .failed error)).1)
    (hnow : o'.system.now = o.system.now) : TickOps o' integration ops := by
  have htame : Tame o o' (· ≠ key) := by
    apply hinv.tame_perform _ hwritten hrows hnow
    intro ids status error' hsame
    cases hsame
    right
    intro other hother id' hid' hchain
    rw [List.mem_singleton.mp hid'] at hchain
    exact hother (hinv.inChain_inj hchain hid)
  apply TickOps.chains
  apply htame.chains hinv hrest
  intro other hother _
  rintro rfl
  exact hkey hother

/-- A tick goes on with the next of its chains. -/
theorem Inv.tickOps_chains (hinv : o.Inv) (htame : Tame o o' fun _ => True) {ids : List ID}
    {own : List ChainKey} {ops : List Op} (hkey : key ∉ own) (hown : key.1 = integration)
    (hleft : ChainLeft o key ids) (hrest : Chains o integration own ops) (outcome : Outcome) :
    TickOps o' integration ((o.system.perform integration outcome (.chain ids)).2 ++ ops) := by
  have hchains := htame.chains hinv hrest fun _ _ _ => trivial
  cases ids with
  | nil => exact .chains hchains
  | cons id tail => exact .counting hkey hown (htame.chainLeft hinv trivial hleft) hchains

/-- Whatever a tick does next, it stands in order after it. -/
theorem Inv.tickOps_perform (hinv : o.Inv) {op : Op} {rest : List Op} {outcome : Outcome}
    (hops : TickOps o integration (op :: rest)) (hwritten : o'.written = o.written)
    (hrows : o'.system.rows = (o.system.perform integration outcome op).1)
    (hnow : o'.system.now = o.system.now) :
    TickOps o' integration ((o.system.perform integration outcome op).2 ++ rest) := by
  have htame (hop : ∀ ids status error, op = .updateAll ids status error →
      status = .sent ∨ status = .skipped ∨ status = .processing) : Tame o o' fun _ => True := by
    apply hinv.tame_perform _ hwritten hrows hnow
    exact fun ids status error h => Or.inl (hop ids status error h)
  have hall (key : ChainKey) : key.1 = integration → True := fun _ => trivial
  generalize hlist : op :: rest = ops at hops
  cases hops with
  | pluck =>
    obtain ⟨rfl, rfl⟩ := List.cons.inj hlist
    rw [List.append_nil]
    exact hinv.tickOps_pluck (htame (by simp)) outcome
  | found hpicked =>
    obtain ⟨rfl, rfl⟩ := List.cons.inj hlist
    rw [List.append_nil]
    exact tickOps_findIntegration ((htame (by simp)).pickedUp hinv hall hpicked) outcome
  | window hpicked =>
    obtain ⟨rfl, rfl⟩ := List.cons.inj hlist
    rw [List.append_nil]
    exact tickOps_checkWindow ((htame (by simp)).pickedUp hinv hall hpicked) outcome
  | skipping hids =>
    obtain ⟨rfl, rfl⟩ := List.cons.inj hlist
    exact .chains .nil
  | @issues issueOps ids hissues hpicked =>
    cases issueOps with
    | nil =>
      obtain ⟨rfl, rfl⟩ := List.cons.inj hlist
      obtain ⟨own, hchains⟩ := hinv.chains_deliverMonitorRows hpicked
      rw [List.append_nil]
      exact .chains ((htame (by simp)).chains hinv hchains fun key _ => hall key)
    | cons first others =>
      obtain ⟨rfl, rfl⟩ := List.cons.inj hlist
      exact hinv.tickOps_issues hissues hpicked hwritten hrows hnow
  | counting hkey hown hleft hrest =>
    obtain ⟨rfl, rfl⟩ := List.cons.inj hlist
    have htame := htame (by simp)
    exact .starting hkey hown (htame.chainLeft hinv trivial hleft)
      (htame.chains hinv hrest fun key _ => hall key)
  | starting hkey hown hleft hrest =>
    obtain ⟨rfl, rfl⟩ := List.cons.inj hlist
    have htame := htame (by simp)
    exact .delivering hkey hown (htame.chainLeft hinv trivial hleft) (started_updateAll hrows)
      (htame.chains hinv hrest fun key _ => hall key)
  | delivering hkey hown hleft hstarted hrest =>
    obtain ⟨rfl, rfl⟩ := List.cons.inj hlist
    exact hinv.tickOps_delivering (htame (by simp)) hkey hown hleft hstarted hrest outcome
  | settling hstatus hids hrest =>
    obtain ⟨rfl, rfl⟩ := List.cons.inj hlist
    apply TickOps.chains
    apply (htame _).chains hinv hrest fun key _ => hall key
    rintro ids status error hsame
    cases hsame
    exact hstatus.imp_right Or.inl
  | failing hkey hown hid hrest =>
    obtain ⟨rfl, rfl⟩ := List.cons.inj hlist
    exact hinv.tickOps_failing hkey hid hrest hwritten hrows hnow
  | chains hchains =>
    subst hlist
    cases hchains with
    | cons hkey hown hleft hrest => exact hinv.tickOps_chains (htame (by simp)) hkey hown hleft hrest outcome

/-- What a tick is about to write: an outcome after which a row is not picked up, the failure of a
Monitor row, or what is about Issues. -/
theorem updateAll_cases {ids : List ID} {status : Status} {error : Option String} {rest : List Op}
    (hops : TickOps o integration (.updateAll ids status error :: rest)) :
    (status = .sent ∨ status = .skipped ∨ status = .processing) ∨ status = .failed ∨
      AboutIssues o integration ids := by
  generalize hlist : Op.updateAll ids status error :: rest = ops at hops
  cases hops with
  | skipping hids =>
    cases hlist
    exact Or.inl (Or.inr (Or.inl rfl))
  | @issues issueOps picked hissues hpicked =>
    cases issueOps with
    | nil => cases hlist
    | cons first others =>
      obtain ⟨rfl, -⟩ := List.cons.inj hlist
      exact Or.inr (Or.inr (hissues _ List.mem_cons_self))
  | starting =>
    cases hlist
    exact Or.inl (Or.inr (Or.inr rfl))
  | settling hstatus =>
    cases hlist
    exact Or.inl (hstatus.imp_right Or.inl)
  | failing =>
    cases hlist
    exact Or.inr (Or.inl rfl)
  | chains hchains =>
    subst hlist
    cases hchains
  | _ => cases hlist

/-- What loads or delivers issues is about issues. -/
theorem issueOp_of_head {op : Op} {rest : List Op} (hops : TickOps o integration (op :: rest))
    (hop : ∃ ids, op = .loadIssueRows ids ∨ op = .deliverMessage ids) : IssueOp o integration op := by
  obtain ⟨ids, hop⟩ := hop
  generalize hlist : op :: rest = ops at hops
  cases hops with
  | @issues issueOps picked hissues hpicked =>
    cases issueOps with
    | nil =>
      cases hlist
      simp at hop
    | cons first others =>
      obtain ⟨rfl, -⟩ := List.cons.inj hlist
      exact hissues op List.mem_cons_self
  | chains hchains =>
    subst hlist
    cases hchains
    simp at hop
  | _ =>
    cases hlist
    simp at hop

/-- No Monitor row is planned by what is about Issues. -/
theorem Inv.not_planned_issueOp (hinv : o.Inv) {op : Op} (hop : IssueOp o integration op)
    (hchain : o.InChain key id) : id ∉ op.planned := by
  intro hid
  cases op with
  | updateAll ids status error =>
    unfold Op.planned at hid
    split at hid <;> simp_all
    exact hinv.not_aboutIssues hop hchain hid
  | loadIssueRows ids => simp [Op.planned] at hid
  | updateCounters ids => simp [Op.planned] at hid
  | deliverMessage ids => simp [Op.planned] at hid
  | _ => exact hop.elim

/-- A Monitor row that a tick leaves to be picked up could go before. -/
theorem Inv.mayGo_of_deliverable (hinv : o.Inv) {op : Op} {rest : List Op} {outcome : Outcome}
    (hmem : ⟨integration, op :: rest⟩ ∈ o.system.ticks) {row : Notification}
    (hrow : row ∈ (o.system.perform integration outcome op).1) (hchain : o.InChain key row.id)
    (hkey : row.chainKey = some key) (hdeliverable : row.deliverable o.system.now = true) :
    o.MayGo row.id := by
  have hops := hinv.ticks _ hmem
  -- but for a failure, what can be picked up could be picked up before
  have hquiet (hop : ∀ ids status error, op = .updateAll ids status error →
      (status = .sent ∨ status = .skipped ∨ status = .processing) ∨
        ∀ key : ChainKey, True → ∀ id ∈ ids, ¬ o.InChain key id) : o.MayGo row.id := by
    have htame : Tame o { o with system := { o.system with
        rows := (o.system.perform integration outcome op).1 } } fun _ => True :=
      hinv.tame_perform hop rfl rfl rfl
    cases htame.rows row hrow key hkey trivial with
    | inl hdone =>
      rw [hdeliverable] at hdone
      exact Bool.noConfusion hdone
    | inr hold =>
      cases hold with
      | inl hbefore =>
        obtain ⟨before, hbefore, hid, -, hbeforeDeliverable⟩ := hbefore
        exact Or.inl ⟨before, hbefore, hid, hbeforeDeliverable⟩
      | inr hnew => exact absurd hnew (Nat.not_le_of_lt (hinv.lt_nextID hchain))
  by_cases hall : ∃ ids status error, op = .updateAll ids status error
  · obtain ⟨ids, status, error, rfl⟩ := hall
    obtain hstatus | rfl | hissues := updateAll_cases hops
    · apply hquiet
      intro ids' status' error' hsame
      cases hsame
      exact Or.inl hstatus
    · by_cases hid : row.id ∈ ids
      · exact Or.inr ⟨_, hmem, _, List.mem_cons_self, hid⟩
      · obtain ⟨old, hold, rfl⟩ := List.mem_map.mp hrow
        split at hdeliverable
        · rename_i hmarked
          rw [if_pos hmarked] at hid
          have hmarked : old.id ∈ ids := by simpa using hmarked
          exact absurd hmarked hid
        · rename_i hmarked
          rw [if_neg hmarked]
          exact Or.inl ⟨old, hold, rfl, hdeliverable⟩
    · apply hquiet
      intro ids' status' error' hsame
      cases hsame
      exact Or.inr fun key _ id hid hchain => hinv.not_aboutIssues hissues hchain hid
  · apply hquiet
    intro ids status error hsame
    exact absurd ⟨ids, status, error, hsame⟩ hall

/-- What a tick plans after an operation it planned before, or picks up. -/
theorem Inv.mayGo_of_planned (hinv : o.Inv) {op : Op} {rest : List Op} {outcome : Outcome}
    (hmem : ⟨integration, op :: rest⟩ ∈ o.system.ticks) (hchain : o.InChain key id) {next : Op}
    (hnext : next ∈ (o.system.perform integration outcome op).2) (hid : id ∈ next.planned) :
    o.MayGo id := by
  have hplanned (h : id ∈ op.planned) : o.MayGo id := Or.inr ⟨_, hmem, op, List.mem_cons_self, h⟩
  cases op with
  | pluck =>
    simp only [System.perform] at hnext
    split at hnext
    · simp at hnext
    · obtain rfl := List.mem_singleton.mp hnext
      obtain ⟨row, hrow, rfl⟩ := List.mem_map.mp hid
      simp only [List.mem_filter, Bool.and_eq_true] at hrow
      exact Or.inl ⟨row, hrow.1, rfl, hrow.2.1.1⟩
  | findIntegration ids =>
    simp only [System.perform] at hnext
    split at hnext
    · obtain rfl := List.mem_singleton.mp hnext
      simp [Op.planned] at hid
    · obtain rfl := List.mem_singleton.mp hnext
      simp [Op.planned] at hid
    · obtain rfl := List.mem_singleton.mp hnext
      exact hplanned hid
  | checkWindow ids =>
    simp only [System.perform] at hnext
    split at hnext
    · simp at hnext
    · obtain rfl | rfl : next = .loadIssueRows ids ∨ next = .loadMonitorRows ids := by
        simpa using hnext
      · simp [Op.planned] at hid
      · exact hplanned hid
  | loadIssueRows ids =>
    have hop := issueOp_of_head (hinv.ticks _ hmem) ⟨ids, Or.inl rfl⟩
    exact absurd hid (hinv.not_planned_issueOp (hinv.issueOp_perform hop outcome next hnext) hchain)
  | loadMonitorRows ids =>
    rw [System.perform, hinv.deliverMonitorRows_eq] at hnext
    obtain ⟨group, -, rfl⟩ := List.mem_map.mp hnext
    obtain ⟨row, hrow, rfl⟩ := List.mem_map.mp hid
    simp only [List.mem_filter, Bool.and_eq_true, List.contains_eq_mem, decide_eq_true_eq] at hrow
    exact hplanned hrow.1.2.1
  | updateCounters ids => simp [System.perform] at hnext
  | updateAll ids status error => simp [System.perform] at hnext
  | deliverMessage ids =>
    have hop := issueOp_of_head (hinv.ticks _ hmem) ⟨ids, Or.inr rfl⟩
    exact absurd hid (hinv.not_planned_issueOp (hinv.issueOp_perform hop outcome next hnext) hchain)
  | chain ids =>
    cases ids with
    | nil => simp [System.perform] at hnext
    | cons first others =>
      obtain rfl | rfl | rfl : next = .updateCounters [first] ∨
          next = .updateAll [first] .processing none ∨ next = .deliverMonitorMessage first others := by
        simpa [System.perform, markRows] using hnext
      · simp [Op.planned] at hid
      · simp [Op.planned] at hid
      · exact hplanned hid
  | deliverMonitorMessage first others =>
    cases outcome with
    | delivered =>
      obtain rfl | rfl : next = .updateAll [first] .sent none ∨ next = .chain others := by
        simpa [System.perform, System.monitorOutcome, markRows] using hnext
      · simp [Op.planned] at hid
      · exact hplanned (List.mem_cons_of_mem _ hid)
    | notConfigured message =>
      obtain rfl | rfl : next = .updateAll [first] .skipped (some message) ∨ next = .chain others := by
        simpa [System.perform, System.monitorOutcome, markRows] using hnext
      · simp [Op.planned] at hid
      · exact hplanned (List.mem_cons_of_mem _ hid)
    | error message =>
      obtain rfl : next = .updateAll [first] .failed (some message) := by
        simpa [System.perform, System.monitorOutcome, markRows] using hnext
      exact hplanned (List.mem_cons.mpr (Or.inl (List.mem_singleton.mp hid)))

/-- What is planned for a tick is planned for one of its chains. -/
theorem chains_planned {own : List ChainKey} {ops : List Op} (h : Chains o integration own ops)
    {op : Op} (hop : op ∈ ops) (hid : id ∈ op.planned) :
    ∃ key ∈ own, o.InChain key id ∧ key.1 = integration := by
  induction h with
  | nil => simp at hop
  | cons hkey hown hleft hrest ih =>
    cases List.mem_cons.mp hop with
    | inl hfirst =>
      rw [hfirst] at hid
      exact ⟨_, List.mem_cons_self, hleft.inChain id hid, hown⟩
    | inr hlater =>
      obtain ⟨key, hmem, hchain⟩ := ih hlater
      exact ⟨key, List.mem_cons_of_mem _ hmem, hchain⟩

/-- A tick plans rows of its own Integration's chains. -/
theorem Inv.planned_own (hinv : o.Inv) {ops : List Op} (hops : TickOps o integration ops) {op : Op}
    (hop : op ∈ ops) (hid : id ∈ op.planned) (hchain : o.InChain key id) : key.1 = integration := by
  have hpickedOwn {ids : List ID} (hpicked : PickedUp o integration ids) (hid : id ∈ ids) :=
    hinv.integration_of_inChain hpicked.ofIntegration hid hchain
  have hleftOwn {other : ChainKey} {ids : List ID} (hown : other.1 = integration)
      (hleft : ChainLeft o other ids) (hid : id ∈ ids) : key.1 = integration := by
    rw [hinv.inChain_inj hchain (hleft.inChain id hid), hown]
  have hchainsOwn {own : List ChainKey} {ops : List Op} (hchains : Chains o integration own ops)
      (hop : op ∈ ops) : key.1 = integration := by
    obtain ⟨other, -, hother, hown⟩ := chains_planned hchains hop hid
    rw [hinv.inChain_inj hchain hother, hown]
  cases hops with
  | pluck =>
    rw [List.mem_singleton.mp hop] at hid
    simp [Op.planned] at hid
  | found hpicked =>
    rw [List.mem_singleton.mp hop] at hid
    exact hpickedOwn hpicked hid
  | window hpicked =>
    rw [List.mem_singleton.mp hop] at hid
    exact hpickedOwn hpicked hid
  | skipping hids =>
    rw [List.mem_singleton.mp hop] at hid
    simp [Op.planned] at hid
  | issues hissues hpicked =>
    cases List.mem_append.mp hop with
    | inl hissue => exact absurd hid (hinv.not_planned_issueOp (hissues op hissue) hchain)
    | inr hload =>
      rw [List.mem_singleton.mp hload] at hid
      exact hpickedOwn hpicked hid
  | @counting other first rest own ops hkey hown hleft hrest =>
    obtain rfl | rfl | rfl | hlater : op = .updateCounters [first] ∨
        op = .updateAll [first] .processing none ∨ op = .deliverMonitorMessage first rest ∨
          op ∈ ops := by
      simpa using hop
    · simp [Op.planned] at hid
    · simp [Op.planned] at hid
    · exact hleftOwn hown hleft hid
    · exact hchainsOwn hrest hlater
  | @starting other first rest own ops hkey hown hleft hrest =>
    obtain rfl | rfl | hlater : op = .updateAll [first] .processing none ∨
        op = .deliverMonitorMessage first rest ∨ op ∈ ops := by
      simpa using hop
    · simp [Op.planned] at hid
    · exact hleftOwn hown hleft hid
    · exact hchainsOwn hrest hlater
  | delivering hkey hown hleft hstarted hrest =>
    cases List.mem_cons.mp hop with
    | inl hfirst =>
      rw [hfirst] at hid
      exact hleftOwn hown hleft hid
    | inr hlater => exact hchainsOwn hrest hlater
  | settling hstatus hids hrest =>
    cases List.mem_cons.mp hop with
    | inl hfirst =>
      rw [hfirst] at hid
      obtain rfl | rfl := hstatus <;> simp [Op.planned] at hid
    | inr hlater => exact hchainsOwn hrest hlater
  | failing hkey hown hfailed hrest =>
    cases List.mem_cons.mp hop with
    | inl hfirst =>
      rw [hfirst] at hid
      rw [List.mem_singleton.mp hid] at hchain
      rw [hinv.inChain_inj hchain hfailed, hown]
    | inr hlater => exact hchainsOwn hrest hlater
  | chains hchains => exact hchainsOwn hchains hop

/-- The provider is called with a chain's first row, which has started. -/
theorem delivering_of_head {rest : List ID} {ops : List Op}
    (hops : TickOps o integration (.deliverMonitorMessage id rest :: ops)) :
    ∃ key own, key ∉ own ∧ key.1 = integration ∧ ChainLeft o key (id :: rest) ∧
      (∀ row ∈ o.system.rows, row.chainKey = some key → row.id = id →
        row.deliverable o.system.now = false) ∧ Chains o integration own ops := by
  generalize hlist : Op.deliverMonitorMessage id rest :: ops = all at hops
  cases hops with
  | @issues issueOps picked hissues hpicked =>
    cases issueOps with
    | nil => cases hlist
    | cons first others =>
      obtain ⟨rfl, -⟩ := List.cons.inj hlist
      exact (hissues _ List.mem_cons_self).elim
  | delivering hkey hown hleft hstarted hrest =>
    cases hlist
    exact ⟨_, _, hkey, hown, hleft, hstarted, hrest⟩
  | chains hchains =>
    subst hlist
    cases hchains
  | _ => cases hlist

/-- Another tick is of another Integration. -/
theorem Inv.integration_ne (hinv : o.Inv) {n m : ℕ} {tick other : Tick} (htick : o.system.ticks[n]? = some tick)
    (hother : o.system.ticks[m]? = some other) (hne : n ≠ m) : other.integration ≠ tick.integration := by
  intro hsame
  have hlt : n < (o.system.ticks.map Tick.integration).length := by
    rw [List.length_map]
    exact (List.getElem?_eq_some_iff.mp htick).1
  apply hne ((List.getElem?_inj hlt hinv.oneTick).mp _)
  rw [List.getElem?_map, List.getElem?_map, htick, hother, Option.map_some, Option.map_some, hsame]

/-- Once a Monitor row is sent, only later ones of its chain may go. -/
theorem Inv.later_of_sent (hinv : o.Inv) {tick : ℕ} {rest : List ID} {ops : List Op}
    (htick : o.system.ticks[tick]? = some ⟨integration, .deliverMonitorMessage id rest :: ops⟩)
    (hrows : o'.system.rows = o.system.rows) (hnow : o'.system.now = o.system.now) (hticks : o'.system.ticks = o.system.ticks.set tick
      ⟨integration, System.monitorOutcome id rest .delivered ++ ops⟩)
    (hid : o.InChain key id) {next : ID} (hgo : o'.MayGo next) (hnext : o.InChain key next) :
    id < next := by
  have hmem := List.mem_of_getElem? htick
  obtain ⟨own, others, hkey, hown, hleft, hstarted, hchains⟩ := delivering_of_head (hinv.ticks _ hmem)
  obtain rfl := hinv.inChain_inj (hleft.inChain id List.mem_cons_self) hid
  have hincreasing := List.pairwise_cons.mp hleft.increasing
  cases hgo with
  | inl hstored =>
    obtain ⟨row, hrow, rfl, hdeliverable⟩ := hstored
    rw [hrows] at hrow
    rw [hnow] at hdeliverable
    have hrowKey := hinv.chainKey_of_inChain hrow hnext
    by_cases hpicked : row.id ∈ id :: rest
    · cases List.mem_cons.mp hpicked with
      | inl hsame =>
        rw [hstarted row hrow hrowKey hsame] at hdeliverable
        exact Bool.noConfusion hdeliverable
      | inr hlater => exact hincreasing.1 row.id hlater
    · have hothers := hleft.others row hrow hrowKey hpicked
      rw [hdeliverable] at hothers
      exact hothers.resolve_left Bool.noConfusion id List.mem_cons_self
  | inr hplanned =>
    obtain ⟨other, hother, op, hop, hid⟩ := hplanned
    rw [hticks] at hother
    obtain ⟨j, hj⟩ := List.getElem?_of_mem hother
    by_cases hsame : tick = j
    · subst hsame
      rw [List.getElem?_set_self (List.getElem?_eq_some_iff.mp htick).1] at hj
      obtain rfl := Option.some.inj hj
      obtain rfl | rfl | hlater : op = .updateAll [id] .sent none ∨ op = .chain rest ∨ op ∈ ops := by
        simpa [System.monitorOutcome, markRows] using hop
      · simp [Op.planned] at hid
      · exact hincreasing.1 next hid
      · obtain ⟨key', hkey', hchain, -⟩ := chains_planned hchains hlater hid
        rw [hinv.inChain_inj hnext hchain] at hkey
        exact absurd hkey' hkey
    · rw [List.getElem?_set_ne hsame] at hj
      have hotherOwn := hinv.planned_own (hinv.ticks other (List.mem_of_getElem? hj)) hop hid hnext
      exact absurd (hotherOwn.symm.trans hown) (hinv.integration_ne htick hj hsame)

/-- What a tick does keeps each row's ID, what it is about and when it was written. -/
theorem exists_of_mem_perform {s : System} {outcome : Outcome} {op : Op} {row : Notification}
    (hrow : row ∈ (s.perform integration outcome op).1) : ∃ old ∈ s.rows, old.id = row.id ∧
      old.integration = row.integration ∧ old.subject = row.subject ∧ old.createdAt = row.createdAt := by
  by_cases hcounters : ∃ ids, op = .updateCounters ids
  · obtain ⟨ids, rfl⟩ := hcounters
    obtain ⟨old, hold, rfl⟩ := List.mem_map.mp hrow
    refine ⟨old, hold, ?_⟩
    split <;> exact ⟨rfl, rfl, rfl, rfl⟩
  · by_cases hall : ∃ ids status error, op = .updateAll ids status error
    · obtain ⟨ids, status, error, rfl⟩ := hall
      obtain ⟨old, hold, rfl⟩ := List.mem_map.mp hrow
      refine ⟨old, hold, ?_⟩
      split <;> exact ⟨rfl, rfl, rfl, rfl⟩
    · push Not at hcounters hall
      rw [System.perform_rows hcounters hall] at hrow
      exact ⟨row, hrow, rfl, rfl, rfl, rfl⟩

/-- An operation of a tick writes no row and deletes none. -/
theorem ids_perform {s : System} {outcome : Outcome} {op : Op} :
    (s.perform integration outcome op).1.map Notification.id = s.rows.map Notification.id := by
  by_cases hcounters : ∃ ids, op = .updateCounters ids
  · obtain ⟨ids, rfl⟩ := hcounters
    rw [System.perform, List.map_map]
    apply List.map_congr_left
    intro row _
    simp only [Function.comp_apply]
    split <;> rfl
  · by_cases hall : ∃ ids status error, op = .updateAll ids status error
    · obtain ⟨ids, status, error, rfl⟩ := hall
      rw [System.perform, List.map_map]
      apply List.map_congr_left
      intro row _
      simp only [Function.comp_apply]
      split <;> rfl
    · push Not at hcounters hall
      rw [System.perform_rows hcounters hall]

/-- The rows stay in the order of their ids. -/
theorem Inv.perform_rowsInOrder (hinv : o.Inv) {outcome : Outcome} {op : Op} :
    (o.system.perform integration outcome op).1.Pairwise (·.id < ·.id) := by
  have hids : ((o.system.perform integration outcome op).1.map Notification.id).Pairwise (· < ·) := by
    rw [ids_perform]
    exact List.pairwise_map.mpr hinv.rowsInOrder
  exact List.pairwise_map.mp hids

/-- What an action that sends sends next to the others. -/
theorem mem_sent {sent : List ID} {next : Option ID} (h : id ∈ sent ++ next.toList) :
    id ∈ sent ∨ next = some id := by
  cases List.mem_append.mp h with
  | inl hbefore => exact Or.inl hbefore
  | inr hnew => exact Or.inr (by simpa using hnew)

/-- A statement that sends is one of the tick's own chains. -/
theorem of_sends {s : System} {tick : ℕ} {outcome : Outcome} {op : Op} {rest : List Op}
    (htick : s.ticks[tick]? = some ⟨integration, op :: rest⟩)
    (hsends : s.sends (.perform tick outcome) = some id) :
    outcome = .delivered ∧ ∃ others, op = .deliverMonitorMessage id others := by
  cases outcome with
  | delivered =>
    refine ⟨rfl, ?_⟩
    cases op <;> simp_all [System.sends]
  | notConfigured message => simp [System.sends] at hsends
  | error message => simp [System.sends] at hsends

/-- Rows of another Integration are tame as a tick goes on. -/
theorem Inv.tame_other (hinv : o.Inv) {outcome : Outcome} {op : Op} {rest : List Op}
    (hops : TickOps o integration (op :: rest)) {other : ID} (hother : other ≠ integration)
    (hwritten : o'.written = o.written)
    (hrows : o'.system.rows = (o.system.perform integration outcome op).1)
    (hnow : o'.system.now = o.system.now) : Tame o o' fun key => key.1 = other := by
  apply hinv.tame_perform _ hwritten hrows hnow
  rintro ids status error rfl
  obtain hstatus | rfl | hissues := updateAll_cases hops
  · exact Or.inl hstatus
  · right
    intro key hkey id hid hchain
    have hown := hinv.planned_own hops List.mem_cons_self (show id ∈ ids from hid) hchain
    exact hother (hkey.symm.trans hown)
  · exact Or.inr fun key _ id hid hchain => hinv.not_aboutIssues hissues hchain hid

section Perform

variable {tick : ℕ} {outcome : Outcome} {op : Op} {rest : List Op}

/-- A statement leaves each tick its Integration. -/
theorem integrations_set {ticks : List Tick} {ops next : List Op}
    (htick : ticks[tick]? = some ⟨integration, ops⟩) :
    (ticks.set tick ⟨integration, next⟩).map Tick.integration = ticks.map Tick.integration := by
  obtain ⟨hlt, hget⟩ := List.getElem?_eq_some_iff.mp htick
  apply List.ext_getElem?
  intro j
  rw [List.getElem?_map, List.getElem?_map, List.getElem?_set]
  split
  · rename_i hsame
    subst hsame
    simp [hlt, hget]
  · rfl

/-- What may go after a statement could go before. -/
theorem Inv.mayGo_of_perform (hinv : o.Inv)
    (htick : o.system.ticks[tick]? = some ⟨integration, op :: rest⟩)
    (hrows : o'.system.rows = (o.system.perform integration outcome op).1)
    (hnow : o'.system.now = o.system.now)
    (hticks : o'.system.ticks = o.system.ticks.set tick
      ⟨integration, (o.system.perform integration outcome op).2 ++ rest⟩)
    (hchain : o.InChain key id) (hgo : o'.MayGo id) : o.MayGo id := by
  have hmem := List.mem_of_getElem? htick
  cases hgo with
  | inl hstored =>
    obtain ⟨row, hrow, rfl, hdeliverable⟩ := hstored
    rw [hrows] at hrow
    rw [hnow] at hdeliverable
    obtain ⟨old, hold, hid, hintegration, hsubject, -⟩ := exists_of_mem_perform hrow
    have hkey := hinv.chainKey_of_inChain hold (hid ▸ hchain)
    rw [chainKey_congr hintegration hsubject] at hkey
    exact hinv.mayGo_of_deliverable hmem hrow hchain hkey hdeliverable
  | inr hplanned =>
    obtain ⟨other, hother, op', hop', hid⟩ := hplanned
    rw [hticks] at hother
    cases List.mem_or_eq_of_mem_set hother with
    | inl hother => exact Or.inr ⟨other, hother, op', hop', hid⟩
    | inr hsame =>
      subst hsame
      cases List.mem_append.mp hop' with
      | inl hnext => exact hinv.mayGo_of_planned hmem hchain hnext hid
      | inr hrest => exact Or.inr ⟨_, hmem, op', List.mem_cons_of_mem _ hrest, hid⟩

/-- Every tick stands as it should after a statement of one. -/
theorem Inv.ticks_perform (hinv : o.Inv)
    (htick : o.system.ticks[tick]? = some ⟨integration, op :: rest⟩) (hwritten : o'.written = o.written)
    (hrows : o'.system.rows = (o.system.perform integration outcome op).1)
    (hnow : o'.system.now = o.system.now)
    (hticks : o'.system.ticks = o.system.ticks.set tick
      ⟨integration, (o.system.perform integration outcome op).2 ++ rest⟩) :
    ∀ other ∈ o'.system.ticks, TickOps o' other.integration other.ops := by
  have hops := hinv.ticks _ (List.mem_of_getElem? htick)
  intro other hother
  rw [hticks] at hother
  obtain ⟨j, hj⟩ := List.getElem?_of_mem hother
  by_cases hsame : tick = j
  · subst hsame
    rw [List.getElem?_set_self (List.getElem?_eq_some_iff.mp htick).1] at hj
    obtain rfl := Option.some.inj hj
    exact hinv.tickOps_perform hops hwritten hrows hnow
  · rw [List.getElem?_set_ne hsame] at hj
    have htame := hinv.tame_other hops (hinv.integration_ne htick hj hsame) hwritten hrows hnow
    exact htame.tickOps hinv (hinv.ticks other (List.mem_of_getElem? hj))

end Perform

/-- A statement of a tick keeps the invariant. -/
theorem Inv.perform (hinv : o.Inv) {tick : ℕ} {outcome : Outcome}
    (hstep : o.step (.perform tick outcome) = some o') : o'.Inv := by
  obtain ⟨t, ht, hpure⟩ := Option.bind_eq_some_iff.mp hstep
  obtain rfl := Option.some.inj hpure
  simp only [System.step] at ht
  split at ht
  · rename_i integration op rest htick
    obtain rfl := Option.some.inj ht
    have hmem := List.mem_of_getElem? htick
    have hops := hinv.ticks _ hmem
    simp only [newRows, List.append_nil]
    set o' : Outbox := ⟨{ o.system with
        rows := (o.system.perform integration outcome op).1
        ticks := o.system.ticks.set tick
          ⟨integration, (o.system.perform integration outcome op).2 ++ rest⟩ },
      o.written, o.sent ++ (o.system.sends (.perform tick outcome)).toList⟩
    have hrows : o'.system.rows = (o.system.perform integration outcome op).1 := rfl
    have hticks : o'.system.ticks = o.system.ticks.set tick
      ⟨integration, (o.system.perform integration outcome op).2 ++ rest⟩ := rfl
    have hmayGo (key : ChainKey) (id : ID) (hchain : o.InChain key id) (hgo : o'.MayGo id) : o.MayGo id :=
      hinv.mayGo_of_perform htick hrows rfl hticks hchain hgo
    have hsent (id : ID) (hid : id ∈ o'.sent) : id ∈ o.sent ∨ outcome = .delivered ∧
        ∃ others, op = .deliverMonitorMessage id others :=
      (mem_sent hid).imp_right (of_sends htick)
    refine ⟨hinv.written, hinv.bounded, ?_, hinv.perform_rowsInOrder, ?_, ?_, ?_, ?_, ?_, ?_, ?_⟩
    · intro row hrow
      obtain ⟨old, hold, hid, hintegration, hsubject, -⟩ := exists_of_mem_perform hrow
      obtain ⟨first, hfirst, hfirstId, hfirstIntegration, hfirstSubject⟩ := hinv.rowsWritten old hold
      exact ⟨first, hfirst, hfirstId.trans hid, hfirstIntegration.trans hintegration,
        hfirstSubject.trans hsubject⟩
    · intro row hrow
      obtain ⟨old, hold, -, -, -, hcreated⟩ := exists_of_mem_perform hrow
      rw [← hcreated]
      exact hinv.created old hold
    · intro row hrow id group kept hsubject
      obtain ⟨old, hold, -, -, hsame, -⟩ := exists_of_mem_perform hrow
      exact hinv.kept old hold id group kept (hsame.trans hsubject)
    · exact integrations_set htick ▸ hinv.oneTick
    · exact hinv.ticks_perform htick rfl hrows rfl hticks
    · intro id hid
      cases hsent id hid with
      | inl hbefore => exact hinv.sentWritten id hbefore
      | inr hnew =>
        obtain ⟨-, others, rfl⟩ := hnew
        obtain ⟨key, -, -, -, hleft, -, -⟩ := delivering_of_head hops
        exact hinv.lt_nextID (hleft.inChain id List.mem_cons_self)
    · intro key id hid hchain other hgo hother
      cases hsent id hid with
      | inl hbefore => exact hinv.later key id hbefore hchain other (hmayGo key other hother hgo) hother
      | inr hnew =>
        obtain ⟨rfl, others, rfl⟩ := hnew
        have hsame : o'.system.rows = o.system.rows := rfl
        exact hinv.later_of_sent htick hsame rfl rfl hchain hgo hother
    · refine List.pairwise_append.mpr ⟨hinv.inOrder, ?_, ?_⟩
      · cases o.system.sends (.perform tick outcome) with
        | none => exact List.Pairwise.nil
        | some id => exact List.pairwise_singleton _ _
      · intro first hfirst second hsecond key hchain hchain'
        obtain ⟨rfl, others, rfl⟩ := of_sends htick (by simpa using hsecond)
        exact hinv.later key first hfirst hchain second
          (Or.inr ⟨_, hmem, _, List.mem_cons_self, List.mem_cons_self⟩) hchain'
  · simp at ht

/-- Time passing, rows going and ticks ending keep every chain in order. -/
theorem Inv.of_less (hinv : o.Inv) (hwritten : o'.written = o.written) (hsent : o'.sent = o.sent)
    (hnext : o'.system.nextID = o.system.nextID) (hrows : o'.system.rows.Sublist o.system.rows)
    (hnow : o.system.now ≤ o'.system.now) (hticks : o'.system.ticks.Sublist o.system.ticks) :
    o'.Inv := by
  have hchain (key : ChainKey) (id : ID) : o'.InChain key id ↔ o.InChain key id := by
    rw [InChain, InChain, hwritten]
  have htame : Tame o o' fun _ => True := by
    refine ⟨fun row hrow => hwritten ▸ hrow, ?_⟩
    intro row hrow key hkey _
    cases hdeliverable : row.deliverable o'.system.now with
    | false => exact Or.inl rfl
    | true => exact Or.inr (Or.inl ⟨row, hrows.subset hrow, rfl, hkey,
        Notification.deliverable_later hnow hdeliverable⟩)
  have hmayGo (id : ID) (hgo : o'.MayGo id) : o.MayGo id := by
    cases hgo with
    | inl hstored =>
      obtain ⟨row, hrow, hid, hdeliverable⟩ := hstored
      exact Or.inl ⟨row, hrows.subset hrow, hid, Notification.deliverable_later hnow hdeliverable⟩
    | inr hplanned =>
      obtain ⟨tick, htick, hop⟩ := hplanned
      exact Or.inr ⟨tick, hticks.subset htick, hop⟩
  refine ⟨hwritten ▸ hinv.written, ?_, ?_, hinv.rowsInOrder.sublist hrows, ?_, ?_,
    hinv.oneTick.sublist (hticks.map _), ?_, ?_, ?_, ?_⟩
  · intro row hrow
    rw [hnext]
    exact hinv.bounded row (hwritten ▸ hrow)
  · intro row hrow
    rw [hwritten]
    exact hinv.rowsWritten row (hrows.subset hrow)
  · exact fun row hrow => le_trans (hinv.created row (hrows.subset hrow)) hnow
  · exact fun row hrow => hinv.kept row (hrows.subset hrow)
  · intro tick htick
    have hquiet : Tame o o' fun key => key.1 = tick.integration := htame.mono fun _ _ => trivial
    exact hquiet.tickOps hinv (hinv.ticks tick (hticks.subset htick))
  · intro id hid
    rw [hnext]
    exact hinv.sentWritten id (hsent ▸ hid)
  · intro key id hid hidChain next hgo hnextChain
    exact hinv.later key id (hsent ▸ hid) ((hchain key id).mp hidChain) next (hmayGo next hgo)
      ((hchain key next).mp hnextChain)
  · rw [InOrder, hsent]
    refine hinv.inOrder.imp ?_
    intro first second h key hfirst hsecond
    exact h key ((hchain key first).mp hfirst) ((hchain key second).mp hsecond)

/-- The start of a tick keeps the invariant, where its integration has no other. -/
theorem Inv.startTick (hinv : o.Inv) (hone : o.OneTick (.startTick integration))
    (hstep : o.step (.startTick integration) = some o') : o'.Inv := by
  obtain rfl := Option.some.inj hstep
  simp only [newRows, List.append_nil, System.sends, Option.toList_none]
  set o' : Outbox := ⟨{ o.system with ticks := o.system.ticks ++ [⟨integration, [.pluck]⟩] },
    o.written, o.sent⟩
  have hmayGo (id : ID) (hgo : o'.MayGo id) : o.MayGo id := by
    cases hgo with
    | inl hstored => exact Or.inl hstored
    | inr hplanned =>
      obtain ⟨tick, htick, op, hop, hid⟩ := hplanned
      cases List.mem_append.mp htick with
      | inl hold => exact Or.inr ⟨tick, hold, op, hop, hid⟩
      | inr hnew =>
        rw [List.mem_singleton.mp hnew] at hop
        rw [List.mem_singleton.mp hop] at hid
        simp [Op.planned] at hid
  refine { hinv with oneTick := ?_, ticks := ?_, later := ?_ }
  · rw [List.map_append, List.nodup_append]
    refine ⟨hinv.oneTick, List.nodup_singleton _, ?_⟩
    intro first hfirst second hsecond hsame
    obtain ⟨tick, htick, rfl⟩ := List.mem_map.mp hfirst
    exact hone tick htick (hsame.trans (List.mem_singleton.mp hsecond))
  · intro tick htick
    have htame : Tame o o' fun key => key.1 = tick.integration := by
      refine ⟨fun _ hrow => hrow, ?_⟩
      intro row hrow key hkey _
      cases hdeliverable : row.deliverable o.system.now with
      | false => exact Or.inl rfl
      | true => exact Or.inr (Or.inl ⟨row, hrow, rfl, hkey, hdeliverable⟩)
    cases List.mem_append.mp htick with
    | inl hold => exact htame.tickOps hinv (hinv.ticks tick hold)
    | inr hnew =>
      rw [List.mem_singleton.mp hnew]
      exact .pluck
  · intro key id hid hchain next hgo hnext
    exact hinv.later key id hid hchain next (hmayGo next hgo) hnext

/-- The outbox with a row more. -/
def write (o : Outbox) (integration : ID) (subject : Subject) (kind : Kind) : Outbox :=
  ⟨o.system.enqueue integration subject kind,
    o.written ++ [o.system.newRow integration subject kind], o.sent⟩

/-- A new row comes after every other. -/
theorem Inv.write (hinv : o.Inv) {subject : Subject} (kind : Kind)
    (hkept : ∀ id group kept, subject = .monitor id group kept → kept = true) :
    (o.write integration subject kind).Inv := by
  have hbefore {row : Notification} (hrow : row ∈ o.system.rows) : row.id < o.system.nextID := by
    obtain ⟨first, hfirst, hid, -⟩ := hinv.rowsWritten row hrow
    rw [← hid]
    exact hinv.bounded first hfirst
  have hchain (key : ChainKey) (id : ID) (hid : id < o.system.nextID)
      (h : (o.write integration subject kind).InChain key id) : o.InChain key id := by
    obtain ⟨row, hrow, hrowId, hkey⟩ := h
    cases List.mem_append.mp hrow with
    | inl hold => exact ⟨row, hold, hrowId, hkey⟩
    | inr hnew =>
      rw [List.mem_singleton.mp hnew] at hrowId
      exact absurd hid (Nat.not_lt_of_le (Nat.le_of_eq hrowId))
  have htame : Tame o (o.write integration subject kind) fun _ => True := by
    refine ⟨fun row hrow => List.mem_append_left _ hrow, ?_⟩
    intro row hrow key hkey _
    cases List.mem_append.mp hrow with
    | inl hold =>
      cases hdeliverable : row.deliverable o.system.now with
      | false => exact Or.inl hdeliverable
      | true => exact Or.inr (Or.inl ⟨row, hold, rfl, hkey, hdeliverable⟩)
    | inr hnew =>
      rw [List.mem_singleton.mp hnew]
      exact Or.inr (Or.inr (Nat.le_refl _))
  refine ⟨?_, ?_, ?_, ?_, ?_, ?_, hinv.oneTick, ?_, ?_, ?_, ?_⟩
  · refine List.pairwise_append.mpr ⟨hinv.written, List.pairwise_singleton _ _, ?_⟩
    intro first hfirst second hsecond
    rw [List.mem_singleton.mp hsecond]
    exact hinv.bounded first hfirst
  · intro row hrow
    cases List.mem_append.mp hrow with
    | inl hold => exact Nat.lt_succ_of_lt (hinv.bounded row hold)
    | inr hnew =>
      rw [List.mem_singleton.mp hnew]
      exact Nat.lt_succ_self _
  · intro row hrow
    cases List.mem_append.mp hrow with
    | inl hold =>
      obtain ⟨first, hfirst, hsame⟩ := hinv.rowsWritten row hold
      exact ⟨first, List.mem_append_left _ hfirst, hsame⟩
    | inr hnew =>
      rw [List.mem_singleton.mp hnew]
      exact ⟨_, List.mem_append_right _ (List.mem_singleton_self _), rfl, rfl, rfl⟩
  · refine List.pairwise_append.mpr ⟨hinv.rowsInOrder, List.pairwise_singleton _ _, ?_⟩
    intro first hfirst second hsecond
    rw [List.mem_singleton.mp hsecond]
    exact hbefore hfirst
  · intro row hrow
    cases List.mem_append.mp hrow with
    | inl hold => exact hinv.created row hold
    | inr hnew =>
      rw [List.mem_singleton.mp hnew]
      exact le_refl _
  · intro row hrow
    cases List.mem_append.mp hrow with
    | inl hold => exact hinv.kept row hold
    | inr hnew =>
      rw [List.mem_singleton.mp hnew]
      exact hkept
  · intro tick htick
    have hquiet : Tame o (o.write integration subject kind) fun key => key.1 = tick.integration :=
      htame.mono fun _ _ => trivial
    exact hquiet.tickOps hinv (hinv.ticks tick htick)
  · exact fun id hid => Nat.lt_succ_of_lt (hinv.sentWritten id hid)
  · intro key id hid hidChain next hgo hnextChain
    have hlt := hinv.sentWritten id hid
    by_cases hnew : o.system.nextID ≤ next
    · exact Nat.lt_of_lt_of_le hlt hnew
    · have hnextLt := Nat.lt_of_not_le hnew
      apply hinv.later key id hid (hchain key id hlt hidChain) next _ (hchain key next hnextLt hnextChain)
      cases hgo with
      | inl hstored =>
        obtain ⟨row, hrow, hrowId, hdeliverable⟩ := hstored
        cases List.mem_append.mp hrow with
        | inl hold => exact Or.inl ⟨row, hold, hrowId, hdeliverable⟩
        | inr hadded =>
          rw [List.mem_singleton.mp hadded] at hrowId
          exact absurd hnextLt (Nat.not_lt_of_le (Nat.le_of_eq hrowId))
      | inr hplanned => exact Or.inr hplanned
  · refine hinv.inOrder.imp_of_mem ?_
    intro first second hfirst hsecond h key hfirstChain hsecondChain
    exact h key (hchain key first (hinv.sentWritten first hfirst) hfirstChain)
      (hchain key second (hinv.sentWritten second hsecond) hsecondChain)

/-- A Monitor's changes are written one after another. -/
theorem Inv.writeAll (hinv : o.Inv) (monitor : ID) (entries : List ((Kind × String) × ID)) :
    ∃ new, (entries.foldl (fun s e => s.enqueue e.2 (.monitor monitor e.1.2 true) e.1.1)
        o.system).rows = o.system.rows ++ new ∧
      Inv ⟨entries.foldl (fun s e => s.enqueue e.2 (.monitor monitor e.1.2 true) e.1.1) o.system,
        o.written ++ new, o.sent⟩ := by
  induction entries generalizing o with
  | nil => exact ⟨[], (List.append_nil _).symm, by simpa using hinv⟩
  | cons entry rest ih =>
    have hwrite : (o.write entry.2 (.monitor monitor entry.1.2 true) entry.1.1).Inv := by
      apply hinv.write
      intro id group kept hsubject
      cases hsubject
      rfl
    obtain ⟨new, hrows, hall⟩ := ih hwrite
    refine ⟨o.system.newRow entry.2 (.monitor monitor entry.1.2 true) entry.1.1 :: new, ?_, ?_⟩
    · rw [List.foldl_cons]
      exact hrows.trans (by simp [Outbox.write, System.enqueue])
    · rw [List.foldl_cons]
      simpa [Outbox.write] using hall

/-- Every step keeps the invariant. -/
theorem Inv.step (hinv : o.Inv) {a : System.Action} (hone : o.OneTick a)
    (hstep : o.step a = some o') : o'.Inv := by
  cases a with
  | perform tick outcome => exact hinv.perform hstep
  | startTick integration => exact hinv.startTick hone hstep
  | record integration kind issue =>
    obtain ⟨t, ht, hpure⟩ := Option.bind_eq_some_iff.mp hstep
    obtain rfl := Option.some.inj hpure
    simp only [System.step] at ht
    split at ht
    · obtain rfl := Option.some.inj ht
      have hwrite : (o.write integration (.issue issue) kind).Inv := hinv.write kind (by simp)
      simpa [newRows, System.sends, Outbox.write, System.enqueue] using hwrite
    · simp at ht
  | monitorChanges monitor changes integrations =>
    obtain rfl := Option.some.inj hstep
    obtain ⟨new, hrows, hall⟩ := hinv.writeAll monitor (changes.flatMap fun c =>
      (integrations.filter fun id => o.system.isActive id = some true).map fun id => (c, id))
    have hnew : newRows o.system (o.system.monitorChanges monitor changes integrations)
        (.monitorChanges monitor changes integrations) = new := by
      rw [newRows, System.monitorChanges, hrows, List.drop_left]
    rw [hnew]
    simpa [System.sends, System.monitorChanges] using hall
  | endTick tick =>
    obtain ⟨t, ht, hpure⟩ := Option.bind_eq_some_iff.mp hstep
    obtain rfl := Option.some.inj hpure
    simp only [System.step] at ht
    split at ht
    · obtain rfl := Option.some.inj ht
      exact hinv.of_less (List.append_nil _) (List.append_nil _) rfl (List.Sublist.refl _)
        (le_refl _) (List.eraseIdx_sublist _ _)
    · simp at ht
  | kill tick =>
    obtain ⟨t, ht, hpure⟩ := Option.bind_eq_some_iff.mp hstep
    obtain rfl := Option.some.inj hpure
    simp only [System.step] at ht
    split at ht
    · obtain rfl := Option.some.inj ht
      exact hinv.of_less (List.append_nil _) (List.append_nil _) rfl (List.Sublist.refl _)
        (le_refl _) (List.eraseIdx_sublist _ _)
    · simp at ht
  | cleanUp =>
    obtain rfl := Option.some.inj hstep
    exact hinv.of_less (List.append_nil _) (List.append_nil _) rfl List.filter_sublist (le_refl _)
      (List.Sublist.refl _)
  | pass seconds =>
    obtain rfl := Option.some.inj hstep
    exact hinv.of_less (List.append_nil _) (List.append_nil _) rfl (List.Sublist.refl _)
      (Int.le_add_of_nonneg_right (Int.natCast_nonneg seconds)) (List.Sublist.refl _)
  | _ =>
    obtain rfl := Option.some.inj hstep
    exact hinv.of_less (List.append_nil _) (List.append_nil _) rfl (List.Sublist.refl _)
      (le_refl _) (List.Sublist.refl _)

/-- The invariant holds before anything is written. -/
theorem Inv.init : init.Inv := by
  constructor <;> simp [Outbox.init, System.init, InOrder]

/-- While each Integration has one tick at a time, the rows of each chain go in the order they were
written, each at most once: when a row goes, no earlier one of its chain goes after it, and none of those
left in the outbox is picked up again. -/
theorem chains_inOrder (hrun : Transition.Reaches step OneTick init o) : o.InOrder ∧ o.NonePassed := by
  have hinv : o.Inv := hrun.invariant Inv.init fun _ _ _ hinv hone hstep => hinv.step hone hstep
  refine ⟨hinv.inOrder, ?_⟩
  intro key id hid hchain row hrow hkey hle
  cases hdeliverable : row.deliverable o.system.now with
  | false => rfl
  | true =>
    have hlater := hinv.later key id hid hchain row.id (Or.inl ⟨row, hrow, rfl, hdeliverable⟩)
      (hinv.inChain_of_chainKey hrow hkey)
    exact absurd hlater (Nat.not_lt_of_le hle)

instance (o : Outbox) : (a : System.Action) → Decidable (o.OneTick a)
  | .startTick integration =>
    inferInstanceAs (Decidable (∀ tick ∈ o.system.ticks, tick.integration ≠ integration))
  | .pass _ => isTrue trivial
  | .addIntegration _ => isTrue trivial
  | .setActive _ _ => isTrue trivial
  | .deleteIntegration _ => isTrue trivial
  | .addIssue _ => isTrue trivial
  | .deleteIssue _ => isTrue trivial
  | .addMonitor _ => isTrue trivial
  | .deleteMonitor _ => isTrue trivial
  | .record _ _ _ => isTrue trivial
  | .monitorChanges _ _ _ => isTrue trivial
  | .perform _ _ => isTrue trivial
  | .endTick _ => isTrue trivial
  | .kill _ => isTrue trivial
  | .cleanUp => isTrue trivial

/-- A group fires, which the provider doesn't take. It resolves, and the next tick sends both; then it
fires again, and the tick that sends this is killed before it records it. -/
def firesTwice : List System.Action :=
  [System.Action.addIntegration 1, .monitorChanges 9 [(.monitorFiring, "a")] [1], .startTick 1] ++
    List.replicate 12 (System.Action.perform 0 (.error "down")) ++
    [System.Action.endTick 0, .pass 60, .monitorChanges 9 [(.monitorResolved, "a")] [1], .startTick 1] ++
    List.replicate 18 (System.Action.perform 0 .delivered) ++
    [System.Action.endTick 0, .pass 60, .monitorChanges 9 [(.monitorFiring, "a")] [1], .startTick 1] ++
    List.replicate 11 (System.Action.perform 0 .delivered) ++ [System.Action.kill 0, .pass 60]

/-- The run that fires twice is one. -/
private theorem firesTwice_runs : (Transition.run step OneTick init firesTwice).isSome = true := by
  decide +kernel

/-- A Monitor that fires twice is sent in order. -/
theorem chains_inOrder_firesTwice : ∃ o : Outbox,
    Transition.run step OneTick init firesTwice = some o ∧ o.sent = [1, 2, 3] ∧
      o.system.rows.map Notification.status = [.sent, .sent, .processing] ∧
      o.InOrder ∧ o.NonePassed := by
  have hrun := (Option.some_get firesTwice_runs).symm
  exact ⟨_, hrun, by decide +kernel, by decide +kernel,
    chains_inOrder (Transition.reaches_of_run hrun)⟩

end Outbox

end SolidTrace.Notifications
