import ScaleKv.Compute.EmbeddedTxn
import ScaleKv.Compute.UndoOwnership
import ScaleKv.Foundation.VersionHistory

namespace ScaleKv
namespace Compute
namespace UndoLog

open Foundation List

variable {Value : Type} {log next : UndoLog Value} {owner owner' : PageId -> Owner}

/-!
# Where undo pointers lead

A row and an undo record point to the record of the version before.  Purged
pages are handed out again, so that a pointer can dangle.  It does so only
behind a version that every registered snapshot covers: up to the horizon of
the garbage collection nobody looks further.

The chain behind a version is described against the history of the key.  The
changes of the undo log are summed up in what they keep, and a chain survives
every such change.
-/

/-- The record that a pointer leads to in the cache. -/
def recordAt (log : UndoLog Value) (ptr : UndoPtr) : Option (UndoRecord Value) :=
  log.store.pages[ptr.pageId]?.bind (fun page => page.records[ptr.slotId]?)

/-- The record at the pointer saves the version on top of the history. -/
def Saves (log : UndoLog Value) (ptr : UndoPtr) (record : UndoRecord Value)
    (older : List (Nat × Option Value)) (history : List (Nat × Option Value)) : Prop :=
  log.recordAt ptr = some record ∧ record.oldFlags.intent = false ∧ 0 < record.oldCommitLsn ∧
    history = (record.oldCommitLsn, record.visible) :: older

/-- The page belongs to a transaction that did not commit up to the snapshot. -/
def Safe (log : UndoLog Value) (owner : PageId -> Owner) (readLsn : Nat) (id : PageId) : Prop :=
  ∃ txnId, owner id = .txn txnId ∧
    ∀ segment ∈ log.history, segment.txnId = txnId -> readLsn < segment.commitLsn

/-- The undo pointer of a version with this commit LSN leads to the versions
before it, unless all snapshots from the horizon on cover the version. -/
inductive Behind (log : UndoLog Value) (owner : PageId -> Owner) (horizon : Nat) :
    Option UndoPtr -> Nat -> List (Nat × Option Value) -> Prop
  | settled {ptr commitLsn history} : commitLsn ≤ horizon -> Behind log owner horizon ptr commitLsn history
  | none {commitLsn history} : (∀ readLsn, horizon ≤ readLsn -> visibleAt history readLsn = none) ->
      Behind log owner horizon none commitLsn history
  | some {ptr segment commitLsn record older history} : segment ∈ log.history ->
      segment.commitLsn = commitLsn -> owner ptr.pageId = .txn segment.txnId ->
      Saves log ptr record older history ->
      Behind log owner horizon record.prev record.oldCommitLsn older ->
      Behind log owner horizon (some ptr) commitLsn history

/-- The undo pointer of a row that a transaction in progress has written. -/
def Leads (log : UndoLog Value) (owner : PageId -> Owner) (horizon : Nat) (txnId : TxnId)
    (history : List (Nat × Option Value)) : Option UndoPtr -> Prop
  | none => ∀ readLsn, horizon ≤ readLsn -> visibleAt history readLsn = none
  | some ptr => ∃ ids record older, log.allocated[txnId]? = some ids ∧ ptr.pageId ∈ ids ∧
      Saves log ptr record older history ∧
      Behind log owner horizon record.prev record.oldCommitLsn older

/-- What a snapshot that has followed a pointer can rely on: the rest of the
chain gives the version that it looks for. -/
def Walks (log : UndoLog Value) (owner : PageId -> Owner) (horizon readLsn : Nat)
    (history : List (Nat × Option Value)) : Option UndoPtr -> Prop
  | none => visibleAt history readLsn = none
  | some ptr => log.Safe owner readLsn ptr.pageId ∧ ∃ record older rest,
      Saves log ptr record older rest ∧
      visibleAt rest readLsn = visibleAt history readLsn ∧
      Behind log owner horizon record.prev record.oldCommitLsn older

/-- What a change of the undo log keeps, if the horizon after it is `horizon` and
nothing beyond `durable` was committed before. -/
structure Keeps (log : UndoLog Value) (owner : PageId -> Owner) (horizon durable : Nat)
    (next : UndoLog Value) (owner' : PageId -> Owner) : Prop where
  records : ∀ (ptr : UndoPtr) (record : UndoRecord Value) txnId, owner ptr.pageId = .txn txnId ->
    log.recordAt ptr = some record -> next.recordAt ptr = some record
  owners : ∀ id txnId, owner id = .txn txnId ->
    (∀ segment ∈ log.history, segment.txnId = txnId -> horizon < segment.commitLsn) ->
    owner' id = .txn txnId
  history : ∀ segment ∈ log.history, horizon < segment.commitLsn ->
    segment ∈ next.history
  added : ∀ segment ∈ next.history, segment ∈ log.history ∨ durable < segment.commitLsn

/-! ## Chains survive -/

theorem Inv.segment_unique (inv : log.Inv owner) {first second : Segment}
    (firstMember : first ∈ log.history) (secondMember : second ∈ log.history)
    (same : first.txnId = second.txnId) : first = second :=
  inj_on_of_nodup_map inv.histories firstMember secondMember same

variable {record : UndoRecord Value} {history : List (Nat × Option Value)}
  {horizon durable later commitLsn readLsn endLsn : Nat} {txnId : TxnId} {ptr : Option UndoPtr}

theorem Saves.owned {ptr : UndoPtr} {older : List (Nat × Option Value)}
    (saves : Saves log ptr record older history) (isOwner : owner ptr.pageId = .txn txnId)
    (keeps : Keeps log owner horizon durable next owner') : Saves next ptr record older history :=
  ⟨keeps.records ptr record txnId isOwner saves.1, saves.2⟩

theorem Behind.keeps (behind : Behind log owner horizon ptr commitLsn history) (inv : log.Inv owner)
    (rises : horizon ≤ later) (keeps : Keeps log owner later durable next owner') :
    Behind next owner' later ptr commitLsn history := by
  induction behind with
  | settled covered => exact .settled (covered.trans rises)
  | none empty => exact .none (fun readLsn above => empty readLsn (rises.trans above))
  | @some ptr segment commitLsn _ _ history member stamp isOwner saves _ ih =>
    by_cases covered : commitLsn ≤ later
    · exact .settled covered
    · have young : later < segment.commitLsn := stamp ▸ lt_of_not_ge covered
      apply Behind.some (keeps.history segment member young) stamp
      · apply keeps.owners _ _ isOwner
        intro _ otherMember same
        rw [inv.segment_unique otherMember member same]
        exact young
      · exact saves.owned isOwner keeps
      · exact ih

theorem Safe.keeps {id : PageId} (safe : log.Safe owner readLsn id) (above : horizon ≤ readLsn)
    (below : readLsn ≤ durable) (keeps : Keeps log owner horizon durable next owner') :
    next.Safe owner' readLsn id := by
  rcases safe with ⟨txnId, isOwner, young⟩
  refine ⟨txnId, ?_, ?_⟩
  · apply keeps.owners id txnId isOwner
    intro segment member same
    exact above.trans_lt (young segment member same)
  · intro segment member same
    rcases keeps.added segment member with before | isNew
    · exact young segment before same
    · exact below.trans_lt isNew

theorem Walks.keeps {history' : List (Nat × Option Value)}
    (walks : log.Walks owner horizon readLsn history ptr) (inv : log.Inv owner)
    (rises : horizon ≤ later) (above : later ≤ readLsn) (below : readLsn ≤ durable)
    (same : visibleAt history' readLsn = visibleAt history readLsn)
    (keeps : Keeps log owner later durable next owner') :
    next.Walks owner' later readLsn history' ptr := by
  cases ptr with
  | none => exact same.trans walks
  | some ptr =>
    rcases walks with ⟨safe, record, older, rest, saves, sees, behind⟩
    rcases safe with ⟨txnId, isOwner, young⟩
    refine ⟨?_, record, older, rest, saves.owned isOwner keeps, sees.trans same.symm,
      behind.keeps inv rises keeps⟩
    exact Safe.keeps ⟨txnId, isOwner, young⟩ above below keeps

theorem Leads.keeps (leads : log.Leads owner horizon txnId history ptr) (inv : log.Inv owner)
    (rises : horizon ≤ later) (kept : ∀ ids, log.allocated[txnId]? = some ids ->
      ∃ grown, next.allocated[txnId]? = some grown ∧ ∀ id ∈ ids, id ∈ grown)
    (keeps : Keeps log owner later durable next owner') :
    next.Leads owner' later txnId history ptr := by
  cases ptr with
  | none => exact fun readLsn above => leads readLsn (rises.trans above)
  | some ptr =>
    rcases leads with ⟨ids, record, older, isAllocated, inside, saves, behind⟩
    rcases kept ids isAllocated with ⟨grown, isGrown, subset⟩
    exact ⟨grown, record, older, isGrown, subset _ inside,
      saves.owned (inv.allocated txnId ids _ isAllocated inside) keeps,
      behind.keeps inv rises keeps⟩

/-! ## From a row to a walk -/

/-- A snapshot that does not cover a version can follow its pointer. -/
theorem Behind.walks (behind : Behind log owner horizon ptr commitLsn history) (inv : log.Inv owner)
    (above : horizon ≤ readLsn) (newer : readLsn < commitLsn) :
    log.Walks owner horizon readLsn history ptr := by
  cases behind with
  | settled covered => exact absurd (covered.trans above) newer.not_ge
  | none empty => exact empty readLsn above
  | @some ptr segment _ record older history member stamp isOwner saves below =>
    refine ⟨⟨segment.txnId, isOwner, ?_⟩, record, older, history, saves, rfl, below⟩
    intro _ otherMember same
    rw [inv.segment_unique otherMember member same, stamp]
    exact newer

theorem Leads.walks (leads : log.Leads owner horizon txnId history ptr) (inv : log.Inv owner)
    (above : horizon ≤ readLsn) : log.Walks owner horizon readLsn history ptr := by
  cases ptr with
  | none => exact leads readLsn above
  | some ptr =>
    rcases leads with ⟨ids, record, older, isAllocated, inside, saves, behind⟩
    refine ⟨⟨txnId, inv.allocated txnId ids _ isAllocated inside, ?_⟩, record, older, history,
      saves, rfl, behind⟩
    exact fun segment member same => absurd same (inv.running isAllocated member)

theorem Leads.behind (leads : log.Leads owner horizon txnId history ptr) (inv : log.Inv owner)
    (keeps : Keeps log owner horizon durable next owner')
    (committed : next.history = log.history ++ log.newSegment txnId endLsn) :
    Behind next owner' horizon ptr endLsn history := by
  cases ptr with
  | none => exact .none leads
  | some ptr =>
    rcases leads with ⟨ids, _, _, isAllocated, inside, saves, behind⟩
    have isOwner := inv.allocated txnId ids _ isAllocated inside
    cases ids with
    | nil => cases inside
    | cons first rest =>
      have member : (⟨txnId, endLsn, first, rest⟩ : Segment) ∈ next.history := by
        rw [committed, newSegment, isAllocated]
        exact mem_concat_self
      refine .some member rfl ?_ (saves.owned isOwner keeps) (behind.keeps inv le_rfl keeps)
      apply keeps.owners _ _ isOwner
      exact fun segment before same => absurd same (inv.running isAllocated before)

theorem Walks.follow {ptr : UndoPtr} (walks : log.Walks owner horizon readLsn history (some ptr))
    (inv : log.Inv owner) (above : horizon ≤ readLsn) (found : log.recordAt ptr = some record) :
    (record.oldCommitLsn ≤ readLsn ∧ lookAtRecord readLsn record = .answer record.visible ∧
        visibleAt history readLsn = record.visible) ∨
      (lookAtRecord readLsn record = .undo record.prev ∧
        log.Walks owner horizon readLsn history record.prev) := by
  rcases walks with ⟨_, _, older, _, ⟨stored, version, _, shape⟩, sees, behind⟩
  cases found.symm.trans stored
  unfold lookAtRecord
  rw [version, if_neg Bool.false_ne_true]
  by_cases covered : record.oldCommitLsn ≤ readLsn
  · refine .inl ⟨covered, if_pos covered, ?_⟩
    rw [← sees, shape, visibleAt_cons_of_le covered]
  · have newer := lt_of_not_ge covered
    refine .inr ⟨if_neg covered, ?_⟩
    have same : visibleAt history readLsn = visibleAt older readLsn := by
      rw [← sees, shape, visibleAt_cons_of_lt newer]
    have below := behind.walks inv above newer
    cases prev : record.prev with
    | none =>
      rw [prev] at below
      exact same.trans below
    | some =>
      rw [prev] at below
      rcases below with ⟨safe, nextRecord, nextOlder, nextRest, saves, seesNext, further⟩
      exact ⟨safe, nextRecord, nextOlder, nextRest, saves, seesNext.trans same.symm, further⟩

/-! ## What the calls keep -/

theorem recordAt_eq_some {ptr : UndoPtr} :
    log.recordAt ptr = some record <-> ∃ page, log.store.pages[ptr.pageId]? = some page ∧
      page.records[ptr.slotId]? = some record :=
  Option.bind_eq_some_iff

theorem Keeps.of_same (pages : next.store.pages = log.store.pages)
    (history : next.history = log.history) : Keeps log owner horizon durable next owner where
  records ptr record txnId _ stored := by
    unfold recordAt at stored ⊢
    rw [pages]
    exact stored
  owners _ _ isOwner _ := isOwner
  history segment member _ := history ▸ member
  added segment member := .inl (history ▸ member)

theorem recordAt_kept {ptr : UndoPtr}
    (kept : ∀ (id : PageId) page, log.store.pages[id]? = some page ->
      ∃ page', next.store.pages[id]? = some page' ∧ page'.records = page.records)
    (stored : log.recordAt ptr = some record) : next.recordAt ptr = some record := by
  rcases recordAt_eq_some.mp stored with ⟨page, found, inside⟩
  rcases kept _ page found with ⟨page', found', same⟩
  exact recordAt_eq_some.mpr ⟨page', found', same ▸ inside⟩

/-- What an append leaves behind. -/
structure Grows (log : UndoLog Value) (txnId : TxnId) (ptr : UndoPtr) (next : UndoLog Value) : Prop where
  history : next.history = log.history
  others : ∀ other, other ≠ txnId -> next.allocated[other]? = log.allocated[other]? ∧
    next.txns[other]? = log.txns[other]?
  pages : ∃ ids grown, log.allocated[txnId]? = some ids ∧ next.allocated[txnId]? = some grown ∧
    ptr.pageId ∈ grown ∧ ∀ id ∈ ids, id ∈ grown
  own : ∃ before after, log.txns[txnId]? = some before ∧ next.txns[txnId]? = some after ∧
    after.roCache = before.roCache ∧ after.dirtyMeta = some next.store.metaPage

theorem Inv.append_keeps (inv : log.Inv owner) {txn : TxnUndo Value}
    (found : log.txns[txnId]? = some txn) (prev : Option UndoPtr) (oldCommitLsn : Nat)
    (oldFlags : Flags) (oldValue : Value) (horizon durable : Nat) :
    ∃ ptr next owner' record, log.append txnId prev oldCommitLsn oldFlags oldValue =
        some (.ok (ptr, next)) ∧ next.Inv owner' ∧ Keeps log owner horizon durable next owner' ∧
      Grows log txnId ptr next ∧ next.recordAt ptr = some record ∧ record.prev = prev ∧
      record.oldCommitLsn = oldCommitLsn ∧ record.oldFlags = oldFlags ∧
      record.oldValue = oldValue := by
  rcases inv.appends found prev oldCommitLsn oldFlags oldValue with
    ⟨ptr, next, after, ids, grown, owner', called, owned, appended, store, txns, allocated, history,
      kept, owners⟩
  have subset : ∀ id ∈ ids, id ∈ grown := by
    intro id member
    rcases appended.allocates with ⟨rfl, _⟩ | ⟨rfl, _⟩
    · exact member
    · exact mem_append_left _ member
  refine ⟨ptr, next, owner', recordOf ⟨log.store, txn⟩ txnId prev oldCommitLsn oldFlags oldValue, called,
    kept, ⟨?_, ?_, ?_, ?_⟩, ⟨history, ?_, ?_, ?_⟩, ?_, rfl, rfl, rfl, rfl⟩
  · intro other record holder isOwner stored
    rcases recordAt_eq_some.mp stored with ⟨page, foundPage, inside⟩
    by_cases member : other.pageId ∈ ids
    · rcases appended.kept _ page _ record member foundPage inside with ⟨page', foundAfter, same⟩
      exact recordAt_eq_some.mpr ⟨page', store ▸ foundAfter, same⟩
    · have outside : other.pageId ∉ grown := by
        intro inGrown
        rcases appended.allocates with ⟨rfl, _⟩ | ⟨rfl, _, allocation⟩
        · exact member inGrown
        · rcases mem_append.mp inGrown with inIds | isNew
          · exact member inIds
          · rw [mem_singleton.mp isNew] at isOwner
            exact inv.metaOwned.unowned allocation holder isOwner
      refine recordAt_eq_some.mpr ⟨page, ?_, inside⟩
      rw [store]
      exact (appended.outside _ outside).trans foundPage
  · exact fun id holder isOwner _ => owners id holder isOwner
  · exact fun segment member _ => history ▸ member
  · exact fun segment member => .inl (history ▸ member)
  · intro other different
    constructor
    · rw [allocated, if_neg (Ne.symm different)]
    · rw [txns, OrderedMap.lookup_insert_of_ne _ _ (Ne.symm different)]
  · exact ⟨ids, grown, owned, (allocated txnId).trans (if_pos rfl), appended.inside, subset⟩
  · refine ⟨txn, after.txn, found, ?_, appended.roCache, ?_⟩
    · rw [txns, OrderedMap.lookup_insert, if_pos rfl]
    · rw [store]
      exact appended.staged
  · rcases appended.written with ⟨page, stored, written⟩
    exact recordAt_eq_some.mpr ⟨page, store ▸ stored, written⟩

theorem Keeps.of_commit (younger : durable < endLsn)
    (history : next.history = log.history ++ log.newSegment txnId endLsn)
    (kept : ∀ (id : PageId) page, log.store.pages[id]? = some page ->
      ∃ page', next.store.pages[id]? = some page' ∧ page'.records = page.records) :
    Keeps log owner horizon durable next owner where
  records _ _ _ _ stored := recordAt_kept kept stored
  owners _ _ isOwner _ := isOwner
  history segment member _ := history ▸ mem_append_left _ member
  added segment member := by
    rw [history] at member
    rcases mem_append.mp member with before | isNew
    · exact .inl before
    · right
      unfold newSegment at isNew
      split at isNew
      · rw [mem_singleton.mp isNew]
        exact younger
      · cases isNew

theorem Keeps.of_purge {gcLsn : Nat} {taken : List Segment} (purged : Purged log next gcLsn taken)
    (below : gcLsn ≤ horizon) (owners : ∀ id txnId, owner id = .txn txnId ->
      (∀ segment ∈ taken, segment.txnId ≠ txnId) -> owner' id = .txn txnId) :
    Keeps log owner horizon durable next owner' where
  records _ _ _ _ stored := recordAt_kept purged.kept stored
  owners id txnId isOwner young := by
    apply owners id txnId isOwner
    intro segment member same
    have inHistory : segment ∈ log.history := purged.history ▸ mem_append_left _ member
    exact absurd ((purged.old segment member).trans below) (young segment inHistory same).not_ge
  history segment member young := by
    rw [purged.history] at member
    rcases mem_append.mp member with isTaken | remains
    · exact absurd ((purged.old segment isTaken).trans below) young.not_ge
    · exact remains
  added segment member := .inl (purged.history ▸ mem_append_right _ member)

end UndoLog
end Compute
end ScaleKv
