import ScaleKv.Compute.SnapshotReads
import Mathlib.Data.List.TakeWhile

namespace ScaleKv
namespace Compute

open Foundation List Option

/-!
# The size of a purge

`gc_purge_undo_segments` writes the head of every segment that it takes off the
history, the head behind them and the META page in a single batch.  The sequencer
refuses a batch of more than 256 pages, and `gc_once` throws the refusal away.
The backlog then stays as it is, so that every later pass is refused as well.
-/

namespace UndoLog

variable {Value : Type} {log next : UndoLog Value} {owner : PageId -> Owner} {gcLsn : Nat}

/-- No segment up to the watermark is left, and the pages of the removed segments
are on the free list as far as they fit. -/
def Reclaimed (log next : UndoLog Value) (gcLsn : Nat) : Prop :=
  (∀ segment ∈ next.history, gcLsn < segment.commitLsn) ∧
    ∃ removed, log.history = removed ++ next.history ∧
      next.store.metaPage.undoFree = log.store.metaPage.undoFree ++
        (removed.flatMap Segment.pages).take (undoFreeCap - log.store.metaPage.undoFree.length)

/-- The segments in front of the first one that is younger than the watermark. -/
def oldest (log : UndoLog Value) (gcLsn : Nat) : List Segment :=
  log.history.takeWhile (fun segment => segment.commitLsn ≤ gcLsn)

theorem undoFree_pushes (metaPage : MetaPage) (ids : List PageId) :
    (ids.foldl MetaPage.pushFreeUndo metaPage).undoFree =
      metaPage.undoFree ++ ids.take (undoFreeCap - metaPage.undoFree.length) := by
  induction ids generalizing metaPage with
  | nil => rw [take_nil, append_nil, foldl_nil]
  | cons _ _ ih =>
    rw [foldl_cons, ih]
    unfold MetaPage.pushFreeUndo
    split
    · next _ =>
      have one : undoFreeCap - metaPage.undoFree.length =
          undoFreeCap - (metaPage.undoFree.length + 1) + 1 := by omega
      rw [length_append, length_singleton, one, take_succ_cons, append_assoc]
      rfl
    · next full => rw [Nat.sub_eq_zero_of_le (le_of_not_gt full), take_zero, take_zero]

theorem oldest_eq {taken rest : List Segment} (shape : log.history = taken ++ rest)
    (old : ∀ segment ∈ taken, segment.commitLsn ≤ gcLsn)
    (young : ∀ segment, rest.head? = some segment -> gcLsn < segment.commitLsn) :
    log.oldest gcLsn = taken := by
  unfold oldest
  rw [shape, takeWhile_append_of_pos (fun segment member => decide_eq_true (old segment member))]
  cases rest with
  | nil => rw [takeWhile_nil, append_nil]
  | cons first =>
    rw [takeWhile_cons_of_neg, append_nil]
    exact fun isOld => not_le_of_gt (young first rfl) (of_decide_eq_true isOld)

theorem old_of_oldest {segment : Segment} (member : segment ∈ log.oldest gcLsn) :
    segment.commitLsn ≤ gcLsn := by
  have tested := mem_takeWhile_imp member
  exact of_decide_eq_true tested

/-- The batch has the heads of the segments that the purge takes and the head
that is the first one afterwards. -/
theorem Purging.size {taken rest : List Segment} {result : UndoStore.Purge Value}
    (inv : log.Inv owner) (shape : log.history = taken ++ rest)
    (purging : Purging log.store taken rest result) (nonempty : taken ≠ []) :
    result.dirtyPages.size = min (taken.length + 1) log.history.length := by
  have written : result.dirtyPages.keys.Perm ((log.history.take (taken.length + 1)).map Segment.first) := by
    have distinct : ((log.history.take (taken.length + 1)).map Segment.first).Nodup :=
      inv.firsts_distinct.sublist ((take_sublist _ _).map _)
    refine (perm_ext_iff_of_nodup Std.TreeMap.nodup_keys distinct).mpr ?_
    intro id
    rw [Std.TreeMap.mem_keys, shape, take_length_add_append, map_append, mem_append]
    constructor
    · intro inside
      rcases purging.dirty id _ (Std.TreeMap.getElem?_eq_some_getElem inside) with
        ⟨_, _, _, _, ⟨head, _⟩ | ⟨_, more, rfl, _⟩⟩
      · exact .inl head
      · cases rest with
        | nil => exact absurd rfl more
        | cons first => exact .inr mem_cons_self
    · rintro (head | behind)
      · rcases mem_map.mp head with ⟨segment, member, rfl⟩
        rcases purging.closed segment member with ⟨_, found⟩
        exact Std.TreeMap.mem_iff_isSome_getElem?.mpr (found ▸ rfl)
      · cases rest with
        | nil => cases behind
        | cons first =>
          cases mem_singleton.mp behind
          rcases purging.front nonempty (cons_ne_nil _ _) with ⟨_, found⟩
          exact Std.TreeMap.mem_iff_isSome_getElem?.mpr (found ▸ rfl)
  rw [← Std.TreeMap.length_keys, written.length_eq, length_map, length_take]

theorem Inv.purgeBatch_eq (inv : log.Inv owner) (gcLsn : Nat) :
    log.store.purgeBatch gcLsn = if log.oldest gcLsn = [] then 0
      else min ((log.oldest gcLsn).length + 1) log.history.length + 1 := by
  rcases inv.purge_cases gcLsn with ⟨taken, _, _, run, shape, old, young, purging, _⟩
  rw [oldest_eq shape old young]
  unfold UndoStore.purgeBatch
  rw [run]
  dsimp only
  split
  · next nothing => rw [if_pos (purging.isEmpty_iff.mp nothing)]
  · next something =>
    have nonempty : taken ≠ [] := fun none => something (purging.isEmpty_iff.mpr none)
    rw [if_neg nonempty, purging.size inv shape nonempty]

theorem reclaimed_self_iff :
    log.Reclaimed log gcLsn <-> ∀ segment ∈ log.history, gcLsn < segment.commitLsn := by
  refine ⟨fun reclaimed => reclaimed.1, fun young => ⟨young, [], rfl, ?_⟩⟩
  rw [flatMap_nil, take_nil, append_nil]

theorem not_reclaimed_self (old : log.oldest gcLsn ≠ []) : ¬log.Reclaimed log gcLsn := by
  intro reclaimed
  rcases exists_mem_of_ne_nil _ old with ⟨segment, member⟩
  exact absurd (old_of_oldest member) (not_le_of_gt
    (reclaimed.1 segment ((takeWhile_sublist _).subset member)))

theorem Inv.purge_reclaims (inv : log.Inv owner) (gcLsn : Nat) :
    ∃ purged, log.purge gcLsn = some (.ok purged) ∧ purged.Sound ∧
      (log.Reclaimed purged gcLsn <->
        ∀ segment ∈ log.history.drop (log.oldest gcLsn).length, gcLsn < segment.commitLsn) := by
  rcases inv.purge_cases gcLsn with ⟨taken, _, _, _, shape, old, young, purging, outcome⟩
  rw [oldest_eq shape old young]
  rcases outcome with ⟨rfl, purged⟩ | ⟨_, purged⟩
  · exact ⟨log, purged, ⟨owner, inv⟩, reclaimed_self_iff⟩
  · rcases inv.afterPurge shape purging with ⟨owner', kept, _⟩
    refine ⟨_, purged, ⟨owner', kept⟩, ?_⟩
    rw [shape, drop_left]
    refine ⟨fun reclaimed => reclaimed.1, fun younger => ⟨younger, taken, shape, ?_⟩⟩
    exact purging.free.trans (undoFree_pushes _ _)

end UndoLog

namespace Embedded

open UndoLog

variable {Value : Type} {state : Embedded Value} {run : GcRun Value}

theorem gcPurge_undo {undo : UndoLog Value} {pages : Nat} (running : state.gc = some run)
    (ended : state.txns[run.txnId]? = none) (purged : state.undo.purge run.gcLsn = some (.ok undo))
    (batch : state.undo.store.purgeBatch run.gcLsn = pages) :
    ∃ next, state.gcPurge pages true = some next ∧
      next.undo = if pages ≠ 0 ∧ pages ≤ Sequencer.maxWritesPerTxn ∧ state.sequencer.requestId ≠ 0
        then undo else state.undo := by
  unfold gcPurge
  rw [running, bind_eq_bind, bind_some]
  rw [ended]
  rw [purged, bind_eq_bind, bind_some]
  dsimp only [Sequencer.allocateRequestId, Sequencer.reserveTxnWithRequestId]
  rw [batch]
  by_cases empty : pages = 0
  · rw [if_pos empty, if_neg (fun fits => fits.1 empty)]
    exact ⟨_, rfl, rfl⟩
  · rw [if_neg empty, if_neg empty]
    by_cases large : Sequencer.maxWritesPerTxn < pages
    · rw [if_pos large, if_neg (fun fits => not_le_of_gt large fits.2.1)]
      exact ⟨_, rfl, rfl⟩
    · by_cases zero : state.sequencer.requestId = 0
      · rw [if_neg large, if_pos zero, if_neg (fun fits => fits.2.2 zero)]
        exact ⟨_, rfl, rfl⟩
      · rw [if_neg large, if_neg zero, if_pos ⟨empty, le_of_not_gt large, zero⟩]
        exact ⟨_, rfl, rfl⟩

/-- The batch of the oldest segments can be reserved. -/
def Reservable (state : Embedded Value) (gcLsn : Nat) : Prop :=
  state.undo.oldest gcLsn ≠ [] ∧ state.sequencer.requestId ≠ 0 ∧
    min ((state.undo.oldest gcLsn).length + 1) state.undo.history.length + 1 ≤ Sequencer.maxWritesPerTxn

theorem gcPurge_outcome {owner : PageId -> Owner} (inv : state.undo.Inv owner)
    (running : state.gc = some run) (quiet : state.txns.isEmpty = true) :
    ∃ next, state.gcPurge (state.undo.store.purgeBatch run.gcLsn) true = some next ∧
      ((state.Reservable run.gcLsn ∧ next.undo.Sound ∧
          (state.undo.Reclaimed next.undo run.gcLsn <->
            ∀ segment ∈ state.undo.history.drop (state.undo.oldest run.gcLsn).length,
              run.gcLsn < segment.commitLsn)) ∨
        (¬state.Reservable run.gcLsn ∧ next.undo = state.undo)) := by
  rcases inv.purge_reclaims run.gcLsn with ⟨_, purges, sound, reclaims⟩
  rcases gcPurge_undo running ((OrderedMap.isEmpty_iff_lookup _).mp quiet _) purges rfl with
    ⟨next, taken, undo⟩
  refine ⟨next, taken, ?_⟩
  rw [inv.purgeBatch_eq] at undo
  by_cases none : state.undo.oldest run.gcLsn = []
  · rw [if_pos none, if_neg (fun fits => fits.1 rfl)] at undo
    exact .inr ⟨fun reservable => reservable.1 none, undo⟩
  · rw [if_neg none] at undo
    split at undo
    · next fits =>
      rw [undo]
      exact .inl ⟨⟨none, fits.2.2, fits.2.1⟩, sound, reclaims⟩
    · next refused =>
      refine .inr ⟨?_, undo⟩
      rintro ⟨_, nonzero, small⟩
      exact refused ⟨Nat.succ_ne_zero _, small, nonzero⟩

/-- Updates of one row, each with an undo segment of its own but for the first. -/
def updatesOf (count : Nat) : List (Action Nat) :=
  (List.range count).flatMap (fun index =>
    [.begin (index + 1) false] ++ putOf (index + 1) (Key.ofNat 7) index ++ commitOf (index + 1) 3)

end Embedded

end Compute
end ScaleKv
